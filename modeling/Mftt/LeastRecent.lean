import Mftt.BlockCacheRuns
import Mftt.CircularList

/-!
# The order of the block cache

`bio_cache_get` on the links of the cache list, as `lib/linklist.h` has them: it goes
forward through the list to find the block and counts on the way, goes backward to find
a buffer to evict, and relinks in both cases. This refines the cache whose list is a
sequence. The sequence is the order in which the buffers were last got, so the buffer
evicted is the least recently got one among those that nobody refers to.
-/

namespace Mftt

open CircularList Function List

/-- The cache with the links of its list. -/
structure LinkedCache where
  links : Links Nat
  buffer : Nat → Option Buffer
  disk : Nat → Option (Nat → UInt8)

/-- The cache with its list as a sequence. -/
def LinkedCache.view (c : LinkedCache) (list : List Nat) : BioCache := ⟨list, c.buffer, c.disk⟩

/-- The address that `list_del` leaves in the successor of a deleted node. -/
abbrev NULL_NODE : Nat := 0

section Operations

variable (head turns : Nat)

/-- `list_foreach_entry_reverse` up to a buffer that nobody refers to, which is removed. -/
def LinkedCache.evict (c : LinkedCache) : Except Fault LinkedCache :=
  match scan c.links.prev head (c.view []).unused turns (c.links.prev head) 0 with
  | none => .error .unfinished
  | some (none, _) => .ok c
  | some (some b, _) =>
    (c.view []).deref b >>= fun buf =>
      (if buf.dirty then bioCacheFlush (c.view []) buf else .ok (c.view [])) >>= fun flushed =>
        .ok ⟨c.links.delete NULL_NODE b, update flushed.buffer b none, flushed.disk⟩

/-- The part of `bio_cache_get` under the lock of the cache. -/
def linkedGet (kmalloc : LinkedCache → Option Nat) (c : LinkedCache) (dev addr : Nat) :
    Except Fault (LinkedCache × Nat) :=
  match scan c.links.next head ((c.view []).isFor dev addr) turns (c.links.next head) 0 with
  | none => .error .unfinished
  | some (some b, _) =>
    (c.view []).deref b >>= fun buf =>
      .ok (⟨(c.links.delete NULL_NODE b).add b head,
        update c.buffer b (some { buf with reference := buf.reference + 1 }), c.disk⟩, b)
  | some (none, i) =>
    (if MAX_BIO_CACHE ≤ i then c.evict head turns else .ok c) >>= fun room =>
      match kmalloc room with
      | none => kpanic "No memory while alloc buffered io."
      | some b =>
        .ok (⟨room.links.add b head,
          update room.buffer b (some (newBuffer dev addr)), room.disk⟩, b)

/-- With enough turns for its loops `bio_cache_get` returns a buffer, or panics because `kmalloc`
refuses one. -/
def GetReturns (kmalloc : LinkedCache → Option Nat) (c : LinkedCache) (dev addr : Nat) : Prop :=
  ∃ bound, (∃ c' b, ∀ turns, bound ≤ turns →
      linkedGet head turns kmalloc c dev addr = .ok (c', b)) ∨
    ∃ room, kmalloc room = none ∧ ∀ turns, bound ≤ turns →
      linkedGet head turns kmalloc c dev addr = kpanic "No memory while alloc buffered io."

end Operations

/-- The buffers that stay when a new one is linked: all of them, unless the cache is full and the
last one that nobody refers to can go. -/
def BioCache.kept (cache : BioCache) : List Nat :=
  if MAX_BIO_CACHE ≤ cache.list.length then
    match cache.toDelete with
    | none => cache.list
    | some b => cache.list.erase b
  else cache.list

/-! ## Refinement of the sequence -/

variable {list : List Nat} {b addr : Nat} {cache' : BioCache} {always : LruState → Prop}

section Refinement

variable {head turns : Nat} {c : LinkedCache}

theorem circle_erase {links : Links Nat} (circle : Circle links head list) (member : b ∈ list) :
    Circle (links.delete NULL_NODE b) head (list.erase b) := by
  obtain ⟨left, right, rfl⟩ := append_of_mem member
  have absent : b ∉ left := by
    intro inside
    have distinct := (nodup_cons.mp circle.distinct).2
    exact (nodup_append.mp distinct).2.2 b inside b (by simp) rfl
  rw [erase_append_right _ absent, erase_cons_head]
  exact circle_delete circle

/-- Writing a buffer back neither reads the list nor changes a buffer. -/
theorem flush_view {buf : Buffer} {flushed : BioCache}
    (flushes : (if buf.dirty then bioCacheFlush (c.view []) buf else .ok (c.view [])) =
      .ok flushed) :
    (if buf.dirty then bioCacheFlush (c.view list) buf else .ok (c.view list)) =
      .ok { flushed with list := list } ∧ flushed.buffer = c.buffer := by
  by_cases dirty : buf.dirty = true
  · rw [if_pos dirty, bioCacheFlush] at flushes ⊢
    split at flushes
    · contradiction
    · rename_i locked
      rw [if_neg locked]
      split at flushes
      · contradiction
      · rename_i content device
        have device' : (c.view list).disk buf.dev = some content := device
        cases flushes
        rw [device']
        dsimp only
        rw [if_pos dirty]
        exact ⟨rfl, rfl⟩
  · rw [if_neg dirty] at flushes ⊢
    cases flushes
    exact ⟨rfl, rfl⟩

/-- The eviction on the circle is that on the list which it shows. -/
theorem linked_evict_refines {room : LinkedCache} (circle : Circle c.links head list)
    (linked : ∀ b, b ∈ list ↔ ∃ buf, c.buffer b = some buf)
    (enough : list.length < turns) (evicts : c.evict head turns = .ok room) :
    ∃ list', (c.view list).evict = .ok (room.view list') ∧ Circle room.links head list' ∧
      ∀ b, b ∈ list' ↔ ∃ buf, room.buffer b = some buf := by
  obtain ⟨met, scans, _⟩ := scan_follows (c.view []).unused 0 (follows_prev circle)
    (by rwa [length_reverse])
  have same : (c.view list).toDelete = list.reverse.find? (c.view []).unused := rfl
  rw [LinkedCache.evict, scans] at evicts
  rw [BioCache.evict, same]
  cases found : list.reverse.find? (c.view []).unused with
  | none =>
    rw [found] at evicts
    cases evicts
    exact ⟨list, rfl, circle, linked⟩
  | some b =>
    rw [found] at evicts
    dsimp only at evicts ⊢
    obtain ⟨buf, present, evicts⟩ := bind_eq_ok.mp evicts
    obtain ⟨flushed, flushes, evicts⟩ := bind_eq_ok.mp evicts
    cases evicts
    have member : b ∈ list := mem_reverse.mp (mem_of_find?_eq_some found)
    have dereferenced : (c.view list).deref b = .ok buf := present
    obtain ⟨flushes', buffers⟩ := flush_view flushes
    refine ⟨list.erase b, ?_, circle_erase circle member, ?_⟩
    · rw [dereferenced, bind_ok, flushes']
      rfl
    · intro x
      rw [(nodup_cons.mp circle.distinct).2.mem_erase_iff, linked, buffers]
      by_cases same : x = b
      · simp [same]
      · simp [same]

/-- `bio_cache_get` on the links is `bio_cache_get` on the sequence, with an allocator that gives
the same answer in this call. -/
theorem linked_get_refines {kmalloc : LinkedCache → Option Nat} {c' : LinkedCache} {dev : Nat}
    (circle : Circle c.links head list) (linked : ∀ b, b ∈ list ↔ ∃ buf, c.buffer b = some buf)
    (fresh : ∀ c b, kmalloc c = some b → c.buffer b = none ∧ b ≠ head)
    (enough : list.length < turns) (gets : linkedGet head turns kmalloc c dev addr = .ok (c', b)) :
    ∃ allocator list', Fresh allocator ∧
      bioCacheGet allocator (c.view list) dev addr = .ok (c'.view list', b) ∧
      Circle c'.links head list' := by
  obtain ⟨met, scans, all⟩ :=
    scan_follows ((c.view []).isFor dev addr) 0 (follows_next circle) enough
  have same : (c.view list).find dev addr = list.find? ((c.view []).isFor dev addr) := rfl
  rw [linkedGet, scans] at gets
  cases found : list.find? ((c.view []).isFor dev addr) with
  | some d =>
    rw [found] at gets same
    obtain ⟨buf, present, gets⟩ := bind_eq_ok.mp gets
    obtain ⟨rfl, rfl⟩ := Prod.mk.inj (Except.ok.inj gets)
    have member : d ∈ list := mem_of_find?_eq_some found
    have dereferenced : (c.view list).deref d = .ok buf := present
    refine ⟨fun _ => none, d :: list.erase d, fun _ _ gives => by contradiction, ?_, ?_⟩
    · rw [bioCacheGet, same]
      dsimp only
      rw [BioCache.promote, dereferenced]
      rfl
    · apply circle_add (circle_erase circle member)
      have distinct := nodup_cons.mp circle.distinct
      intro inside
      rcases mem_cons.mp inside with rfl | inside
      · exact distinct.1 member
      · exact distinct.2.not_mem_erase inside
  | none =>
    rw [found] at gets same
    rw [all found, Nat.zero_add] at gets
    obtain ⟨room, makes, gets⟩ := bind_eq_ok.mp gets
    have makes' : ∃ list', (if MAX_BIO_CACHE ≤ (c.view list).list.length then (c.view list).evict
        else .ok (c.view list)) = .ok (room.view list') ∧ Circle room.links head list' ∧
          ∀ b, b ∈ list' ↔ ∃ buf, room.buffer b = some buf := by
      have length : (c.view list).list.length = list.length := rfl
      rw [length]
      split at makes
      · rename_i full
        rw [if_pos full]
        exact linked_evict_refines circle linked enough makes
      · rename_i short
        rw [if_neg short]
        cases makes
        exact ⟨list, rfl, circle, linked⟩
    obtain ⟨list', makes', circle', linked'⟩ := makes'
    cases gives : kmalloc room with
    | none =>
      rw [gives] at gets
      contradiction
    | some d =>
      rw [gives] at gets
      obtain ⟨rfl, rfl⟩ := Prod.mk.inj (Except.ok.inj gets)
      obtain ⟨free, notHead⟩ := fresh room d gives
      refine ⟨fun cache => if (cache.buffer d).isNone then some d else none, d :: list', ?_, ?_, ?_⟩
      · intro cache b gives
        dsimp only at gives
        split at gives
        · rename_i free
          cases gives
          exact Option.isNone_iff_eq_none.mp free
        · contradiction
      · have unused : ((room.view list').buffer d).isNone = true := by
          rw [Option.isNone_iff_eq_none]
          exact free
        rw [bioCacheGet, same]
        rw [makes', bind_ok, if_pos unused]
        rfl
      · apply circle_add circle'
        intro inside
        rcases mem_cons.mp inside with isHead | inside
        · exact notHead isHead
        · obtain ⟨buf, present⟩ := (linked' d).mp inside
          rw [free] at present
          contradiction

section Returns

variable (circle : Circle c.links head list) (shape : CacheShape (c.view list))
include circle shape

theorem linked_evict_returns : ∃ room, ∀ turns, list.length < turns →
    c.evict head turns = .ok room := by
  have scans : ∀ turns, list.length < turns → ∃ met, scan c.links.prev head (c.view []).unused
      turns (c.links.prev head) 0 = some (list.reverse.find? (c.view []).unused, met) := by
    intro turns enough
    obtain ⟨met, scans, -⟩ := scan_follows (c.view []).unused 0 (follows_prev circle)
      (show list.reverse.length < turns by rwa [length_reverse])
    exact ⟨met, scans⟩
  cases found : list.reverse.find? (c.view []).unused with
  | none =>
    refine ⟨c, fun turns enough => ?_⟩
    obtain ⟨met, scans⟩ := scans turns enough
    rw [LinkedCache.evict, scans, found]
  | some b =>
    obtain ⟨buf, present⟩ := (shape.linked b).mp (mem_reverse.mp
      (mem_of_find?_eq_some found))
    refine ⟨⟨c.links.delete NULL_NODE b, update c.buffer b none, c.disk⟩,
      fun turns enough => ?_⟩
    obtain ⟨met, scans⟩ := scans turns enough
    have clean : buf.dirty = false := shape.clean b buf present
    have dereferenced : (c.view []).deref b = .ok buf := deref_eq_ok.mpr present
    rw [LinkedCache.evict, scans, found]
    dsimp only
    rw [dereferenced, bind_ok, clean]
    rfl

/-- No loop of `bio_cache_get` runs on, and no pointer it follows is bad. -/
theorem linked_get_returns (kmalloc : LinkedCache → Option Nat) (dev addr : Nat) :
    GetReturns head kmalloc c dev addr := by
  refine ⟨list.length + 1, ?_⟩
  cases found : list.find? ((c.view []).isFor dev addr) with
  | some d =>
    obtain ⟨buf, present⟩ := (shape.linked d).mp (mem_of_find?_eq_some found)
    refine .inl ⟨⟨(c.links.delete NULL_NODE d).add d head,
      update c.buffer d (some { buf with reference := buf.reference + 1 }), c.disk⟩, d,
      fun turns enough => ?_⟩
    obtain ⟨met, scans, -⟩ := scan_follows ((c.view []).isFor dev addr) 0 (follows_next circle)
      enough
    have dereferenced : (c.view []).deref d = .ok buf := deref_eq_ok.mpr present
    rw [linkedGet, scans, found]
    dsimp only
    rw [dereferenced]
    rfl
  | none =>
    obtain ⟨room, makes⟩ : ∃ room, ∀ turns, list.length < turns →
        (if MAX_BIO_CACHE ≤ list.length then c.evict head turns else .ok c) = .ok room := by
      split
      · exact linked_evict_returns circle shape
      · exact ⟨c, fun _ _ => rfl⟩
    have reached : ∀ turns, list.length + 1 ≤ turns →
        linkedGet head turns kmalloc c dev addr = (match kmalloc room with
          | none => kpanic "No memory while alloc buffered io."
          | some b => .ok (⟨room.links.add b head,
              update room.buffer b (some (newBuffer dev addr)), room.disk⟩, b)) := by
      intro turns enough
      obtain ⟨met, scans, all⟩ := scan_follows ((c.view []).isFor dev addr) 0
        (follows_next circle) enough
      rw [linkedGet, scans, found]
      dsimp only
      rw [all found, Nat.zero_add, makes turns enough]
      rfl
    cases gives : kmalloc room with
    | none =>
      rw [gives] at reached
      exact .inr ⟨room, gives, reached⟩
    | some b =>
      rw [gives] at reached
      exact .inl ⟨_, b, reached⟩

end Returns

end Refinement

/-! ## What a get does to the sequence -/

/-- The two ways in which `bio_cache_get` ends: the buffer found moves to the front, or a new one
is linked in front of the buffers that stay. -/
inductive GetEffect (cache : BioCache) (dev addr : Nat) : BioCache → Nat → Prop where
  | hit {b buf} : cache.find dev addr = some b → cache.buffer b = some buf →
      GetEffect cache dev addr (cache.replace (b :: cache.list.erase b) b
        { buf with reference := buf.reference + 1 }) b
  | miss {room b} : cache.find dev addr = none → (room = cache ∨ ∃ v, room = cache.remove v) →
      room.list = cache.kept → room.buffer b = none →
      GetEffect cache dev addr (room.link b dev addr) b

section Effects

variable {cache : BioCache} {dev : Nat}

/-- What `bio_cache_get` does to the list. -/
theorem get_effect {kmalloc : BioCache → Option Nat} (shape : CacheShape cache)
    (fresh : Fresh kmalloc) (gets : bioCacheGet kmalloc cache dev addr = .ok (cache', b)) :
    GetEffect cache dev addr cache' b := by
  rw [bioCacheGet] at gets
  split at gets
  · rename_i d found
    obtain ⟨_, buf, present, _⟩ := find_some found
    rw [BioCache.promote, deref_eq_ok.mpr present] at gets
    cases gets
    exact .hit found present
  · rename_i missing
    obtain ⟨room, makes, gets⟩ := bind_eq_ok.mp gets
    have isRoom : (room = cache ∨ ∃ v, room = cache.remove v) ∧ room.list = cache.kept := by
      rw [BioCache.kept]
      split at makes
      · rename_i full
        rw [if_pos full]
        rw [BioCache.evict] at makes
        cases found : cache.toDelete with
        | none =>
          rw [found] at makes
          cases makes
          exact ⟨.inl rfl, rfl⟩
        | some v =>
          obtain ⟨_, buf, present, _⟩ := to_delete_some found
          rw [found] at makes
          dsimp only at makes
          rw [deref_eq_ok.mpr present, bind_ok, shape.clean v buf present] at makes
          cases makes
          exact ⟨.inr ⟨v, rfl⟩, rfl⟩
      · rename_i short
        cases makes
        rw [if_neg short]
        exact ⟨.inl rfl, rfl⟩
    split at gets
    · contradiction
    · rename_i d gives
      cases gets
      exact .miss missing isRoom.1 isRoom.2 (fresh room b gives)

theorem shape_get (shape : CacheShape cache) (effect : GetEffect cache dev addr cache' b) :
    CacheShape cache' := by
  cases effect with
  | hit found present =>
    exact shape_replace shape present
      (perm_cons_erase (mem_of_find?_eq_some found)).symm rfl rfl rfl
  | @miss room _ missing isRoom _ free =>
    have absent : ∀ c buf, cache.buffer c = some buf → ¬ (buf.dev = dev ∧ buf.addr = addr) :=
      fun c buf at_c => find_none missing ((shape.linked c).mpr ⟨buf, at_c⟩) at_c
    rcases isRoom with rfl | ⟨v, rfl⟩
    · exact shape_link shape free absent
    · exact shape_link (shape_remove shape) free fun c buf at_c =>
        absent c buf (remove_buffer.mp at_c).2

/-- The buffer evicted is the last one of the list that nobody refers to. -/
theorem kept_cases (cache : BioCache) :
    (cache.kept = cache.list ∧ (cache.list.length < MAX_BIO_CACHE ∨
      ∀ b ∈ cache.list, cache.unused b = false)) ∨
    ∃ left v right, MAX_BIO_CACHE ≤ cache.list.length ∧ cache.list = left ++ v :: right ∧
      cache.unused v = true ∧ (∀ b ∈ right, cache.unused b = false) ∧
      cache.kept = cache.list.erase v := by
  rw [BioCache.kept]
  split
  · rename_i full
    cases found : cache.toDelete with
    | none =>
      refine .inl ⟨rfl, .inr ?_⟩
      intro b member
      have none := List.find?_eq_none.mp found b (mem_reverse.mpr member)
      simpa using none
    | some v =>
      obtain ⟨unused, before, after, split, refused⟩ := List.find?_eq_some_iff_append.mp found
      refine .inr ⟨after.reverse, v, before.reverse, full, ?_, unused, ?_, rfl⟩
      · rw [← reverse_reverse cache.list, split]
        simp
      · intro b member
        have none := refused b (mem_reverse.mp member)
        simpa using none
  · rename_i short
    exact .inl ⟨rfl, .inl (Nat.lt_of_not_le short)⟩

end Effects

/-! ## Recency -/

/-- A sequence is in the order of a history of gets, the latest get first. -/
def ByRecency (got list : List Nat) : Prop :=
  list.Pairwise fun a b => got.idxOf a < got.idxOf b

section Order

variable {got : List Nat}

/-- The buffer got now goes to the front. -/
theorem by_recency_front (ordered : ByRecency got list) (other : b ∉ list) :
    ByRecency (b :: got) (b :: list) := by
  have later : ∀ a ∈ list, (b :: got).idxOf a = got.idxOf a + 1 := by
    intro a member
    have different : b ≠ a := fun same => other (same ▸ member)
    exact idxOf_cons_ne got different
  constructor
  · intro a member
    rw [idxOf_cons_self, later a member]
    exact Nat.succ_pos _
  · apply List.Pairwise.imp_of_mem _ ordered
    intro a c inside inside' before
    rw [later a inside, later c inside']
    exact Nat.succ_lt_succ before

theorem by_recency_erase (ordered : ByRecency got list) : ByRecency got (list.erase b) :=
  List.Pairwise.sublist erase_sublist ordered

theorem le_of_by_recency {left right : List Nat} (ordered : ByRecency got (left ++ b :: right))
    {a : Nat} (member : a ∈ left ++ [b]) : got.idxOf a ≤ got.idxOf b := by
  rcases mem_append.mp member with inside | same
  · exact Nat.le_of_lt ((pairwise_append.mp ordered).2.2 a inside b mem_cons_self)
  · rw [mem_singleton.mp same]

end Order

/-! ## Runs -/

/-- The cache and the buffers that gets returned, the latest first. -/
structure LruState where
  cache : LinkedCache
  got : List Nat

/-- Replace the buffer at an address. -/
def LruState.put (s : LruState) (b : Nat) (buf : Buffer) : LruState :=
  { s with cache := { s.cache with buffer := update s.cache.buffer b (some buf) } }

/-- `bio_cache_get` returns a buffer, whatever bound on the turns of its loops is large enough. -/
def Gets (head : Nat) (s : LruState) (dev addr : Nat) (s' : LruState) (b : Nat) : Prop :=
  ∃ kmalloc bound, (∀ c b, kmalloc c = some b → c.buffer b = none ∧ b ≠ head) ∧
    (∀ turns, bound ≤ turns → linkedGet head turns kmalloc s.cache dev addr = .ok (s'.cache, b)) ∧
    s'.got = b :: s.got

/-- The steps of any number of processes: a get, taking the sleeplock of a buffer, and the two
parts of `bio_cache_release`. -/
inductive LruStep (head : Nat) (s : LruState) : LruState → Prop where
  | get {dev addr s' b} : Gets head s dev addr s' b → LruStep head s s'
  | acquire {b buf} : s.cache.buffer b = some buf → buf.locked = false →
      LruStep head s (s.put b { buf with locked := true })
  | unlock {b buf} : s.cache.buffer b = some buf → buf.locked = true →
      LruStep head s (s.put b { buf with locked := false })
  | release {b buf} : s.cache.buffer b = some buf →
      LruStep head s (s.put b { buf with reference := buf.reference - 1 })

/-- The empty cache: the head is linked to itself. -/
def lruStart (head : Nat) (disk : Nat → Option (Nat → UInt8)) : LruState where
  cache := ⟨⟨fun _ => head, fun _ => head⟩, fun _ => none, disk⟩
  got := []

/-- Runs all of whose states have a property. -/
inductive LruRun (head : Nat) (disk : Nat → Option (Nat → UInt8)) (always : LruState → Prop) :
    LruState → Prop where
  | start : always (lruStart head disk) → LruRun head disk always (lruStart head disk)
  | step {s s'} : LruRun head disk always s → LruStep head s s' → always s' →
      LruRun head disk always s'

/-- What holds of the list of the cache in every state. -/
structure LruInv (head : Nat) (s : LruState) (list : List Nat) : Prop where
  circle : Circle s.cache.links head list
  shape : CacheShape (s.cache.view list)
  known : ∀ b ∈ list, b ∈ s.got
  ordered : ByRecency s.got list

section Invariant

variable {head : Nat} {disk : Nat → Option (Nat → UInt8)} {s s' : LruState}

section

variable (inv : LruInv head s list)
include inv

/-- A get changes the list as `GetEffect` says. -/
theorem gets_effect {dev : Nat} (gets : Gets head s dev addr s' b) :
    ∃ list', GetEffect (s.cache.view list) dev addr (s'.cache.view list') b ∧
      Circle s'.cache.links head list' := by
  obtain ⟨kmalloc, bound, fresh, gets, _⟩ := gets
  obtain ⟨allocator, list', fresh', gets', circle⟩ := linked_get_refines inv.circle
    inv.shape.linked fresh (by omega) (gets (bound + list.length + 1) (by omega))
  exact ⟨list', get_effect inv.shape fresh' gets', circle⟩

theorem inv_get {dev : Nat} (gets : Gets head s dev addr s' b) : ∃ list', LruInv head s' list' := by
  obtain ⟨list', effect, circle⟩ := gets_effect inv gets
  have shape := shape_get inv.shape effect
  obtain ⟨kmalloc, bound, fresh, _, history⟩ := gets
  suffices recent : (∀ a ∈ list', a ∈ b :: s.got) ∧ ByRecency (b :: s.got) list' by
    rw [← history] at recent
    exact ⟨list', circle, shape, recent.1, recent.2⟩
  generalize after : s'.cache.view list' = cache' at effect
  have sequence : list' = cache'.list := by rw [← after]; rfl
  rw [sequence]
  have front : ∀ rest, (∀ a ∈ rest, a ∈ list) → ByRecency s.got rest → b ∉ rest →
      (∀ a ∈ b :: rest, a ∈ b :: s.got) ∧ ByRecency (b :: s.got) (b :: rest) := by
    intro rest within ordered other
    refine ⟨?_, by_recency_front ordered other⟩
    intro a member
    rcases mem_cons.mp member with rfl | member
    · exact mem_cons_self
    · exact mem_cons_of_mem _ (inv.known a (within a member))
  cases effect with
  | hit found present =>
    exact front _ (fun a => mem_of_mem_erase) (by_recency_erase inv.ordered)
      inv.shape.nodup.not_mem_erase
  | @miss room b missing isRoom stays free =>
    have linked : ∀ c, c ∈ room.list ↔ ∃ buf, room.buffer c = some buf := by
      rcases isRoom with rfl | ⟨v, rfl⟩
      · exact inv.shape.linked
      · exact (shape_remove inv.shape).linked
    have ordered : (∀ a ∈ room.list, a ∈ list) ∧ ByRecency s.got room.list := by
      rcases isRoom with rfl | ⟨v, rfl⟩
      · exact ⟨fun _ member => member, inv.ordered⟩
      · exact ⟨fun _ => mem_of_mem_erase, by_recency_erase inv.ordered⟩
    apply front room.list ordered.1 ordered.2
    intro member
    obtain ⟨buf, present⟩ := (linked b).mp member
    rw [free] at present
    contradiction

theorem inv_put {buf buf' : Buffer} (present : s.cache.buffer b = some buf)
    (dev : buf'.dev = buf.dev) (addr : buf'.addr = buf.addr) (dirty : buf'.dirty = buf.dirty) :
    LruInv head (s.put b buf') list where
  circle := inv.circle
  shape := shape_replace inv.shape present (List.Perm.refl _) dev addr dirty
  known := inv.known
  ordered := inv.ordered

theorem inv_step (step : LruStep head s s') : ∃ list', LruInv head s' list' := by
  cases step with
  | get gets => exact inv_get inv gets
  | acquire present _ => exact ⟨list, inv_put inv present rfl rfl rfl⟩
  | unlock present _ => exact ⟨list, inv_put inv present rfl rfl rfl⟩
  | release present => exact ⟨list, inv_put inv present rfl rfl rfl⟩

end

theorem lru_inv_start : LruInv head (lruStart head disk) [] where
  circle := circle_empty rfl rfl
  shape := by constructor <;> simp [lruStart, LinkedCache.view]
  known := fun _ member => absurd member not_mem_nil
  ordered := List.Pairwise.nil

theorem lru_inv_run (run : LruRun head disk always s) : ∃ list, LruInv head s list := by
  induction run with
  | start => exact ⟨[], lru_inv_start⟩
  | step _ step _ ih =>
    obtain ⟨list, inv⟩ := ih
    exact inv_step inv step

/-- A miss links the new buffer in front of all the others, except the least recently got one
among those that nobody refers to if the cache is full and there is one. -/
def EvictsLeastRecent (s : LruState) (list list' : List Nat) (b : Nat) : Prop :=
  (list' = b :: list ∧ (list.length < MAX_BIO_CACHE ∨
    ∀ a ∈ list, (s.cache.view list).unused a = false)) ∨
  ∃ v ∈ list, MAX_BIO_CACHE ≤ list.length ∧ (s.cache.view list).unused v = true ∧
    (∀ a ∈ list, (s.cache.view list).unused a = true → s.got.idxOf a ≤ s.got.idxOf v) ∧
    list' = b :: list.erase v

/-- Fewer buffers than the cache may have are referred to. -/
def FewReferenced (head : Nat) (s : LruState) : Prop :=
  ∀ list, Circle s.cache.links head list →
    (list.filter fun b => !(s.cache.view list).unused b).length < MAX_BIO_CACHE

theorem evicts_least_recent {dev : Nat} (inv : LruInv head s list)
    (missing : (s.cache.view list).find dev addr = none)
    (effect : GetEffect (s.cache.view list) dev addr cache' b) :
    EvictsLeastRecent s list cache'.list b := by
  cases effect with
  | hit found => simp [missing] at found
  | @miss room b _ isRoom stays free =>
    have sequence : (room.link b dev addr).list = b :: (s.cache.view list).kept := by
      rw [← stays]
      rfl
    rw [sequence]
    rcases kept_cases (s.cache.view list) with ⟨all, reason⟩ | ⟨left, v, right, full, split,
        unused, refused, erased⟩
    · rw [all]
      exact .inl ⟨rfl, reason⟩
    · have split' : list = left ++ v :: right := split
      refine .inr ⟨v, by simp [split'], full, unused, ?_, by rw [erased]; rfl⟩
      intro a member free
      have ordered := inv.ordered
      rw [split'] at ordered member
      apply le_of_by_recency ordered
      rcases mem_append.mp member with inside | inside
      · exact mem_append_left _ inside
      · rcases mem_cons.mp inside with rfl | inside
        · simp
        · rw [refused a inside] at free
          contradiction

/-- With fewer buffers referred to than the cache may have, a full cache has one to evict. -/
theorem get_length {cache : BioCache} {dev : Nat} (effect : GetEffect cache dev addr cache' b)
    (bounded : cache.list.length ≤ MAX_BIO_CACHE)
    (few : (cache.list.filter fun b => !cache.unused b).length < MAX_BIO_CACHE) :
    cache'.list.length ≤ MAX_BIO_CACHE := by
  cases effect with
  | hit found _ =>
    have same := (perm_cons_erase (mem_of_find?_eq_some found)).length_eq
    exact same ▸ bounded
  | @miss room b _ _ stays _ =>
    have length : (room.link b dev addr).list.length = cache.kept.length + 1 := by
      rw [← stays]
      rfl
    rw [length]
    rcases kept_cases cache with ⟨all, short | refused⟩ | ⟨left, v, right, _, split, _, _, erased⟩
    · rw [all]
      exact short
    · have everything : (cache.list.filter fun b => !cache.unused b) = cache.list := by
        apply filter_eq_self.mpr
        intro a member
        rw [refused a member]
        rfl
      rw [everything] at few
      rw [all]
      exact few
    · rw [erased, length_erase_of_mem (by simp [split])]
      omega

theorem run_always (run : LruRun head disk always s) : always s := by
  cases run with
  | start holds => exact holds
  | step _ _ holds => exact holds

theorem bounded_run (run : LruRun head disk (FewReferenced head) s)
    (circle : Circle s.cache.links head list) : list.length ≤ MAX_BIO_CACHE := by
  induction run generalizing list with
  | start =>
    rw [circle_unique circle (circle_empty rfl rfl)]
    exact Nat.zero_le _
  | @step s s' before step _ ih =>
    obtain ⟨old, inv⟩ := lru_inv_run before
    have bounded := ih inv.circle
    have few := run_always before old inv.circle
    cases step with
    | get gets =>
      obtain ⟨list', effect, circle'⟩ := gets_effect inv gets
      rw [circle_unique circle circle']
      exact get_length effect bounded few
    | acquire => exact circle_unique circle inv.circle ▸ bounded
    | unlock => exact circle_unique circle inv.circle ▸ bounded
    | release => exact circle_unique circle inv.circle ▸ bounded

end Invariant

/-- The block cache is least recently used: in every state its list is in the order of the gets;
a get returns unless there is no memory; a hit moves its buffer to the front and a miss evicts at
most one buffer, the least recently got one among those that nobody refers to, and only from a
full cache; and while fewer than `MAX_BIO_CACHE` buffers are referred to there are never more than
that in the cache. -/
theorem block_cache_least_recent (head : Nat) (disk : Nat → Option (Nat → UInt8)) :
    (∀ s, LruRun head disk (fun _ => True) s → ∃ list,
      Circle s.cache.links head list ∧
      (∀ b, b ∈ list ↔ ∃ buf, s.cache.buffer b = some buf) ∧
      (∀ b ∈ list, b ∈ s.got) ∧ ByRecency s.got list ∧
      (∀ kmalloc dev addr, GetReturns head kmalloc s.cache dev addr) ∧
      ∀ dev addr s' b, Gets head s dev addr s' b → ∃ list', Circle s'.cache.links head list' ∧
        if (s.cache.view list).find dev addr = none then EvictsLeastRecent s list list' b
        else list' = b :: list.erase b) ∧
    ∀ s, LruRun head disk (FewReferenced head) s → ∀ list, Circle s.cache.links head list →
      list.length ≤ MAX_BIO_CACHE := by
  constructor
  · intro s run
    obtain ⟨list, inv⟩ := lru_inv_run run
    refine ⟨list, inv.circle, inv.shape.linked, inv.known, inv.ordered,
      linked_get_returns inv.circle inv.shape, ?_⟩
    intro dev addr s' b gets
    obtain ⟨list', effect, circle⟩ := gets_effect inv gets
    refine ⟨list', circle, ?_⟩
    split
    · rename_i missing
      exact evicts_least_recent inv missing effect
    · rename_i present
      generalize after : s'.cache.view list' = cache' at effect
      have sequence : list' = cache'.list := by rw [← after]; rfl
      rw [sequence]
      cases effect with
      | hit => rfl
      | miss missing => exact absurd missing present
  · intro s run list circle
    exact bounded_run run circle

/-- Room for two buffers, at 1 and 2. -/
def twoBuffers (c : LinkedCache) : Option Nat :=
  if (c.buffer 1).isNone then some 1 else if (c.buffer 2).isNone then some 2 else none

/-- The state after a get that returns. -/
def LruState.afterGet (s : LruState) (addr : Nat) : LruState :=
  match linkedGet 0 3 twoBuffers s.cache 0 addr with
  | .ok (c, b) => ⟨c, b :: s.got⟩
  | .error _ => s

theorem two_buffers_fresh (c : LinkedCache) (b : Nat) (gives : twoBuffers c = some b) :
    c.buffer b = none ∧ b ≠ 0 := by
  rw [twoBuffers] at gives
  split at gives
  · rename_i free
    cases gives
    exact ⟨Option.isNone_iff_eq_none.mp free, by decide⟩
  · split at gives
    · rename_i free
      cases gives
      exact ⟨Option.isNone_iff_eq_none.mp free, by decide⟩
    · contradiction

theorem after_get_step {s : LruState} {addr b : Nat} (history : (s.afterGet addr).got = b :: s.got)
    (returns : ∀ more, linkedGet 0 (more + 3) twoBuffers s.cache 0 addr =
      .ok ((s.afterGet addr).cache, b)) : LruStep 0 s (s.afterGet addr) := by
  have gets : Gets 0 s 0 addr (s.afterGet addr) b := by
    refine ⟨twoBuffers, 3, two_buffers_fresh, fun turns enough => ?_, history⟩
    obtain ⟨more, rfl⟩ := Nat.exists_eq_add_of_le' enough
    exact returns more
  exact .get gets

/-- Blocks 0 and 1, and block 0 again: its buffer is in front, and the next get returns. -/
theorem third_get_recent :
    let s := (((lruStart 0 fun _ => none).afterGet 0).afterGet 1).afterGet 0
    s.got = [1, 2, 1] ∧ s.cache.links.next 0 = 1 ∧ s.cache.links.next 1 = 2 ∧
    (∃ list, Circle s.cache.links 0 list ∧ ByRecency s.got list) ∧
    GetReturns 0 twoBuffers s.cache 0 2 := by
  intro s
  have run : LruRun 0 (fun _ => none) (fun _ => True) s :=
    .step (.step (.step (.start trivial) (after_get_step (b := 1) rfl fun _ => rfl) trivial)
      (after_get_step (b := 2) rfl fun _ => rfl) trivial)
      (after_get_step (b := 1) rfl fun _ => rfl) trivial
  obtain ⟨list, circle, -, -, ordered, returns, -⟩ :=
    (block_cache_least_recent 0 fun _ => none).1 s run
  exact ⟨rfl, rfl, rfl, ⟨list, circle, ordered⟩, returns twoBuffers 0 2⟩

end Mftt
