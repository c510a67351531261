import Mftt.BufferedIo

/-!
# What reading a buffered device returns

Between calls the cache shows the bytes of a device: a valid buffer holds them, and where
a block has no valid buffer the device itself does. A read of a block keeps this and
returns the bytes of the block. From that follows what `bio_read` copies: the range asked
for, exactly when the range starts on a block boundary or lies inside one block. A range
that starts inside a block and reaches its end makes the first copy run over the end of
the data array, and a range that ends in the last block of the address space makes the
loop run for ever.
-/

namespace Mftt

open Slices

/-! ## Coherent caches -/

/-- The cache shows the bytes `flat` of a device whose stored bytes are `content`, and only the
buffer in `held` is locked. -/
structure Coherent (dev : Nat) (content flat : Nat → UInt8) (held : Option Nat)
    (cache : BioCache) : Prop where
  shape : CacheShape cache
  device : cache.disk dev = some content
  aligned : ∀ b buf, cache.buffer b = some buf → buf.addr % BUFFER_SIZE = 0
  locked : ∀ b buf, cache.buffer b = some buf → (buf.locked = true ↔ held = some b)
  shown : ∀ b buf, cache.buffer b = some buf → buf.dev = dev → buf.valid = true →
    ∀ k, k < BUFFER_SIZE → buf.data k = flat (buf.addr + k)
  stored : ∀ addr, addr % BUFFER_SIZE = 0 →
    (∀ b buf, cache.buffer b = some buf → buf.dev = dev → buf.addr = addr → buf.valid = false) →
    ∀ k, k < BUFFER_SIZE → content (addr + k) = flat (addr + k)

/-- `kmalloc` finds memory for one more buffer whenever the buffers are those of the list. -/
def Supplies (kmalloc : BioCache → Option Nat) : Prop :=
  ∀ cache, (∀ b, b ∈ cache.list ↔ ∃ buf, cache.buffer b = some buf) → ∃ b, kmalloc cache = some b

variable {kmalloc : BioCache → Option Nat} {dev b : Nat} {content flat : Nat → UInt8}
  {cache : BioCache} {buf : Buffer}

section Coherence

variable {held held' : Option Nat}

/-- A changed buffer keeps the cache coherent if it shows the device's bytes when it is valid. -/
theorem coherent_replace (list : List Nat) (buf' : Buffer)
    (coherent : Coherent dev content flat held cache)
    (present : cache.buffer b = some buf) (order : list.Perm cache.list)
    (same_dev : buf'.dev = buf.dev) (same_addr : buf'.addr = buf.addr)
    (same_dirty : buf'.dirty = buf.dirty) (kept : buf.valid = true → buf'.valid = true)
    (shown : buf'.dev = dev → buf'.valid = true →
      ∀ k, k < BUFFER_SIZE → buf'.data k = flat (buf'.addr + k))
    (locked : buf'.locked = true ↔ held' = some b)
    (others : ∀ c, c ≠ b → (held' = some c ↔ held = some c)) :
    Coherent dev content flat held' (cache.replace list b buf') := by
  constructor
  case shape =>
    exact shape_replace coherent.shape present order same_dev same_addr same_dirty
  case device => exact coherent.device
  case aligned =>
    intro c found at_c
    obtain ⟨before, at_c, _, addr_c, _⟩ :=
      replace_block present same_dev same_addr same_dirty at_c
    rw [addr_c, coherent.aligned c before at_c]
  case locked =>
    intro c found at_c
    rcases replace_cases at_c with ⟨rfl, rfl⟩ | ⟨other, same⟩
    · exact locked
    · exact (coherent.locked c found same).trans (others c other).symm
  case shown =>
    intro c found at_c
    rcases replace_cases at_c with ⟨_, rfl⟩ | ⟨_, same⟩
    · exact shown
    · exact coherent.shown c found same
  case stored =>
    intro addr whole none
    apply coherent.stored addr whole
    intro c before at_c dev_eq addr_eq
    by_cases same : c = b
    · subst same
      cases present.symm.trans at_c
      have invalid := none c buf' (replace_buffer_self ..) (same_dev.trans dev_eq)
        (same_addr.trans addr_eq)
      by_contra valid
      rw [kept (Bool.not_eq_false _ ▸ valid)] at invalid
      contradiction
    · exact none c before ((replace_buffer_of_ne _ _ _ same).trans at_c) dev_eq addr_eq

/-- A buffer may go when the device has the bytes that it shows. -/
theorem coherent_remove (coherent : Coherent dev content flat held cache)
    (settled : ∀ buf, cache.buffer b = some buf → buf.dev = dev → buf.valid = true →
      ∀ k, k < BUFFER_SIZE → buf.data k = content (buf.addr + k)) :
    Coherent dev content flat held (cache.remove b) where
  shape := shape_remove coherent.shape
  device := coherent.device
  aligned := fun c found at_c => coherent.aligned c found (remove_buffer.mp at_c).2
  locked := fun c found at_c => coherent.locked c found (remove_buffer.mp at_c).2
  shown := fun c found at_c => coherent.shown c found (remove_buffer.mp at_c).2
  stored := by
    intro addr whole none k below
    by_cases shows : ∃ buf, cache.buffer b = some buf ∧ buf.dev = dev ∧ buf.addr = addr ∧
        buf.valid = true
    · obtain ⟨buf, present, ofDev, rfl, valid⟩ := shows
      rw [← settled buf present ofDev valid k below]
      exact coherent.shown b buf present ofDev valid k below
    · apply coherent.stored addr whole _ k below
      intro c found at_c dev_eq addr_eq
      by_cases same : c = b
      · subst same
        by_contra valid
        exact shows ⟨found, at_c, dev_eq, addr_eq, Bool.not_eq_false _ ▸ valid⟩
      · exact none c found (remove_buffer.mpr ⟨same, at_c⟩) dev_eq addr_eq

/-- A new buffer for a block that has none, not yet valid. -/
theorem coherent_link {addr new : Nat} (coherent : Coherent dev content flat none cache)
    (free : cache.buffer b = none) (whole : addr % BUFFER_SIZE = 0)
    (missing : ∀ c buf, cache.buffer c = some buf → ¬ (buf.dev = new ∧ buf.addr = addr)) :
    Coherent dev content flat none (cache.link b new addr) := by
  constructor
  case shape => exact shape_link coherent.shape free missing
  case device => exact coherent.device
  case aligned =>
    intro c found at_c
    rcases link_cases at_c with ⟨_, rfl⟩ | ⟨_, at_c⟩
    · exact whole
    · exact coherent.aligned c found at_c
  case locked =>
    intro c found at_c
    rcases link_cases at_c with ⟨_, rfl⟩ | ⟨_, at_c⟩
    · simp [newBuffer]
    · exact coherent.locked c found at_c
  case shown =>
    intro c found at_c dev_eq valid
    rcases link_cases at_c with ⟨_, rfl⟩ | ⟨_, at_c⟩
    · contradiction
    · exact coherent.shown c found at_c dev_eq valid
  case stored =>
    intro a whole none
    apply coherent.stored a whole
    intro c found at_c dev_eq addr_eq
    have other : c ≠ b := by
      rintro rfl
      rw [free] at at_c
      contradiction
    exact none c found ((link_buffer_of_ne other).trans at_c) dev_eq addr_eq

end Coherence

/-! ## Getting and giving back a buffer -/

/-- The cache has a valid buffer for a block. -/
def BioCache.Holding (cache : BioCache) (dev addr : Nat) : Prop :=
  ∃ b buf, cache.buffer b = some buf ∧ buf.dev = dev ∧ buf.addr = addr ∧ buf.valid = true

/-- The device has the bytes of a buffer, if this is a valid one of the device. -/
def BioCache.Settled (cache : BioCache) (dev b : Nat) : Prop :=
  ∀ buf content, cache.buffer b = some buf → buf.dev = dev → buf.valid = true →
    cache.disk dev = some content → ∀ k, k < BUFFER_SIZE → buf.data k = content (buf.addr + k)

/-- Getting a block loses no bytes: there is room for it, the cache has it, or the buffer that goes
is one whose bytes the device has. -/
def BioCache.Spares (cache : BioCache) (dev addr : Nat) : Prop :=
  cache.list.length < MAX_BIO_CACHE ∨ cache.Holding dev addr ∨
    ∀ b, cache.toDelete = some b → cache.Settled dev b

/-- What a call that leaves the process with a buffer of a block, in state `held`, has done: the
cache is coherent and has at most one more buffer; and if it had the block it has kept what it
had. -/
structure Obtained (dev : Nat) (content flat : Nat → UInt8) (held : Option Nat)
    (cache cache' : BioCache) (addr b : Nat) (buf : Buffer) : Prop where
  coherent : Coherent dev content flat held cache'
  present : cache'.buffer b = some buf
  ofDev : buf.dev = dev
  ofAddr : buf.addr = addr
  longer : cache'.list.length ≤ cache.list.length + 1
  same : cache.Holding dev addr → cache'.list.length ≤ cache.list.length
  kept : cache.Holding dev addr → ∀ a, cache.Holding dev a → cache'.Holding dev a
  valid : cache.Holding dev addr → buf.valid = true

section Buffers

variable {addr : Nat}

theorem holding_replace (list : List Nat) (buf' : Buffer) (present : cache.buffer b = some buf)
    (same_dev : buf'.dev = buf.dev) (same_addr : buf'.addr = buf.addr)
    (kept : buf.valid = true → buf'.valid = true) {a : Nat} (holding : cache.Holding dev a) :
    (cache.replace list b buf').Holding dev a := by
  obtain ⟨c, found, at_c, dev_eq, addr_eq, valid⟩ := holding
  by_cases same : c = b
  · subst same
    cases present.symm.trans at_c
    exact ⟨c, buf', replace_buffer_self .., same_dev.trans dev_eq, same_addr.trans addr_eq,
      kept valid⟩
  · exact ⟨c, found, (replace_buffer_of_ne _ _ _ same).trans at_c, dev_eq, addr_eq, valid⟩

/-- The room that `bio_cache_get` makes for a block it did not find. -/
theorem make_room_returns (coherent : Coherent dev content flat none cache)
    (room : cache.list.length < MAX_BIO_CACHE ∨
      ∀ b, cache.toDelete = some b → cache.Settled dev b) :
    ∃ after, (if MAX_BIO_CACHE ≤ cache.list.length then cache.evict else .ok cache) = .ok after ∧
      Coherent dev content flat none after ∧ after.list.length ≤ cache.list.length ∧
      ∀ c found, after.buffer c = some found → cache.buffer c = some found := by
  by_cases full : MAX_BIO_CACHE ≤ cache.list.length
  · have settled := room.resolve_left (Nat.not_lt.mpr full)
    rw [if_pos full, BioCache.evict]
    split
    · exact ⟨cache, rfl, coherent, Nat.le_refl _, fun _ _ at_c => at_c⟩
    · rename_i b found
      obtain ⟨_, buf, present, _⟩ := to_delete_some found
      rw [deref_eq_ok.mpr present, bind_ok, coherent.shape.clean b buf present]
      refine ⟨cache.remove b, rfl, ?_, List.length_erase_le, ?_⟩
      · exact coherent_remove coherent fun buf present ofDev valid =>
          settled b found buf content present ofDev valid coherent.device
      · intro c found at_c
        exact (remove_buffer.mp at_c).2
  · rw [if_neg full]
    exact ⟨cache, rfl, coherent, Nat.le_refl _, fun _ _ at_c => at_c⟩

/-- With room, or with all bytes on the device, any block can be got. -/
theorem spares_of_room (coherent : Coherent dev content flat none cache)
    (room : cache.list.length < MAX_BIO_CACHE ∨ content = flat) : cache.Spares dev addr := by
  refine room.imp_right fun same => .inr fun b _ buf stored present ofDev valid device => ?_
  cases coherent.device.symm.trans device
  subst same
  exact coherent.shown b buf present ofDev valid

section

variable (fresh : Fresh kmalloc) (supplies : Supplies kmalloc)
  (coherent : Coherent dev content flat none cache) (whole : addr % BUFFER_SIZE = 0)
  (room : cache.Spares dev addr)
include fresh supplies coherent whole room

/-- `bio_cache_get` finds the block, takes a free buffer or evicts one. -/
theorem bio_cache_get_returns :
    ∃ cache' b buf, bioCacheGet kmalloc cache dev addr = .ok (cache', b) ∧
      Obtained dev content flat none cache cache' addr b buf := by
  rw [bioCacheGet]
  split
  · rename_i b found
    obtain ⟨member, buf, present, dev_eq, addr_eq⟩ := find_some found
    rw [BioCache.promote, deref_eq_ok.mpr present]
    have order : (b :: cache.list.erase b).Perm cache.list := (List.perm_cons_erase member).symm
    refine ⟨_, b, { buf with reference := buf.reference + 1 }, rfl, ?_⟩
    constructor
    case coherent =>
      exact coherent_replace _ _ coherent present order rfl rfl rfl id
        (coherent.shown b buf present) (coherent.locked b buf present) fun _ _ => Iff.rfl
    case present => exact replace_buffer_self cache (b :: cache.list.erase b) b _
    case ofDev => exact dev_eq
    case ofAddr => exact addr_eq
    case longer => exact Nat.le_succ_of_le (Nat.le_of_eq order.length_eq)
    case same => exact fun _ => Nat.le_of_eq order.length_eq
    case kept =>
      exact fun _ a => holding_replace (b :: cache.list.erase b)
        { buf with reference := buf.reference + 1 } present rfl rfl id
    case valid =>
      rintro ⟨c, found, at_c, dev_c, addr_c, valid⟩
      have same : c = b := coherent.shape.distinct c b found buf at_c present
        (dev_c.trans dev_eq.symm) (addr_c.trans addr_eq.symm)
      subst same
      cases present.symm.trans at_c
      exact valid
  · rename_i missing
    have absent : ∀ c found, cache.buffer c = some found →
        ¬ (found.dev = dev ∧ found.addr = addr) := fun c found at_c =>
      find_none missing ((coherent.shape.linked c).mpr ⟨found, at_c⟩) at_c
    have notHeld : ¬cache.Holding dev addr := by
      rintro ⟨c, found, at_c, dev_c, addr_c, _⟩
      exact absent c found at_c ⟨dev_c, addr_c⟩
    obtain ⟨after, makes, coherent', shorter, fewer⟩ :=
      make_room_returns coherent (room.imp_right fun other => other.resolve_left notHeld)
    obtain ⟨b, gives⟩ := supplies after coherent'.shape.linked
    have free : after.buffer b = none := fresh after b gives
    rw [makes, bind_ok, gives]
    refine ⟨_, b, newBuffer dev addr, rfl, ?_⟩
    constructor
    case coherent =>
      exact coherent_link coherent' free whole fun c found at_c =>
        absent c found (fewer c found at_c)
    case present => exact replace_buffer_self after (b :: after.list) b _
    case ofDev => rfl
    case ofAddr => rfl
    case longer => exact Nat.succ_le_succ shorter
    case same => exact fun held => absurd held notHeld
    case kept => exact fun held => absurd held notHeld
    case valid => exact fun held => absurd held notHeld

theorem bio_cache_get_locked_returns :
    ∃ cache' b buf, bioCacheGetLocked kmalloc cache dev addr = .ok (cache', b) ∧
      Obtained dev content flat (some b) cache cache' addr b buf := by
  obtain ⟨cache₁, b, buf, gets, got⟩ :=
    bio_cache_get_returns fresh supplies coherent whole room
  have unlocked : buf.locked = false := by
    rw [← Bool.not_eq_true, got.coherent.locked b buf got.present]
    simp
  rw [bioCacheGetLocked, gets, bind_ok]
  dsimp only
  rw [BioCache.acquire, BioCache.lockBuffer, deref_eq_ok.mpr got.present, bind_ok, unlocked]
  refine ⟨_, b, { buf with locked := true }, rfl, ?_⟩
  constructor
  case coherent =>
    apply coherent_replace cache₁.list { buf with locked := true } got.coherent got.present
      (List.Perm.refl _) rfl rfl rfl id (got.coherent.shown b buf got.present)
    · simp
    · intro c other
      simp [other.symm]
  case present => exact replace_buffer_self cache₁ cache₁.list b _
  case ofDev => exact got.ofDev
  case ofAddr => exact got.ofAddr
  case longer => exact got.longer
  case same => exact got.same
  case kept =>
    exact fun held a holding => holding_replace cache₁.list { buf with locked := true }
      got.present rfl rfl id (got.kept held a holding)
  case valid => exact got.valid

end

theorem modify_eq (change : Buffer → Buffer) (present : cache.buffer b = some buf) :
    cache.modify b change = .ok (cache.replace cache.list b (change buf)) := by
  rw [BioCache.modify, deref_eq_ok.mpr present]
  rfl

theorem fill_eq (device : cache.disk dev = some content) (present : cache.buffer b = some buf) :
    cache.fill dev addr b = .ok (cache.replace cache.list b
      { buf with data := readSector content addr buf.data }) := by
  rw [BioCache.fill, device]
  dsimp only
  rw [deref_eq_ok.mpr present]
  rfl

theorem replace_replace (list list' : List Nat) (first second : Buffer) :
    (cache.replace list b first).replace list' b second = cache.replace list' b second := by
  simp [BioCache.replace, BioCache.put]

/-- `bio_cache_read` returns a valid buffer of the block. -/
theorem bio_cache_read_returns (fresh : Fresh kmalloc) (supplies : Supplies kmalloc)
    (coherent : Coherent dev content flat none cache) (whole : addr % BUFFER_SIZE = 0)
    (room : cache.Spares dev addr) :
    ∃ cache' b buf, bioCacheRead kmalloc cache dev addr = .ok (cache', b) ∧
      Obtained dev content flat (some b) cache cache' addr b buf ∧ buf.valid = true := by
  obtain ⟨cache₁, b, buf, gets, got⟩ :=
    bio_cache_get_locked_returns fresh supplies coherent whole room
  rw [bioCacheRead, assert_true _ whole, bind_ok, gets, bind_ok]
  dsimp only
  rw [deref_eq_ok.mpr got.present, bind_ok]
  by_cases valid : buf.valid = true
  · rw [if_pos valid]
    exact ⟨cache₁, b, buf, rfl, got, valid⟩
  · let filled : Buffer := { buf with data := readSector content addr buf.data, valid := true }
    rw [if_neg valid, fill_eq got.coherent.device got.present, bind_ok,
      modify_eq _ (replace_buffer_self cache₁ cache₁.list b _), replace_replace]
    -- No other buffer is for the block, so the device has its bytes.
    have bytes : ∀ k, k < BUFFER_SIZE → content (addr + k) = flat (addr + k) := by
      apply got.coherent.stored addr whole
      intro c found at_c dev_c addr_c
      have same : c = b := got.coherent.shape.distinct c b found buf at_c got.present
        (dev_c.trans got.ofDev.symm) (addr_c.trans got.ofAddr.symm)
      subst same
      cases got.present.symm.trans at_c
      exact Bool.not_eq_true _ ▸ valid
    refine ⟨_, b, filled, rfl, ?_, rfl⟩
    constructor
    case coherent =>
      apply coherent_replace cache₁.list filled got.coherent got.present (List.Perm.refl _) rfl
        rfl rfl (fun _ => rfl)
      · intro _ _ k inside
        exact (if_pos inside).trans ((bytes k inside).trans (by rw [← got.ofAddr]))
      · exact got.coherent.locked b buf got.present
      · exact fun _ _ => Iff.rfl
    case present => exact replace_buffer_self ..
    case ofDev => exact got.ofDev
    case ofAddr => exact got.ofAddr
    case longer => exact got.longer
    case same => exact got.same
    case kept =>
      exact fun held a holding => holding_replace cache₁.list filled got.present rfl rfl
        (fun _ => rfl) (got.kept held a holding)
    case valid => exact fun _ => rfl

theorem bio_cache_release_returns (coherent : Coherent dev content flat (some b) cache)
    (present : cache.buffer b = some buf) :
    ∃ cache', bioCacheRelease cache b = .ok cache' ∧ Coherent dev content flat none cache' ∧
      cache'.list = cache.list ∧ ∀ a, cache.Holding dev a → cache'.Holding dev a := by
  have locked : buf.locked = true := (coherent.locked b buf present).mpr rfl
  let released : Buffer := { buf with locked := false, reference := buf.reference - 1 }
  refine ⟨cache.replace cache.list b released, ?_, ?_, rfl, ?_⟩
  · rw [bioCacheRelease, deref_eq_ok.mpr present, bind_ok, if_neg (by simp [locked]),
      modify_eq _ present, bind_ok, modify_eq _ (replace_buffer_self cache cache.list b _),
      replace_replace]
    rfl
  · apply coherent_replace cache.list released coherent present (List.Perm.refl _) rfl rfl rfl id
      (coherent.shown b buf present)
    · simp [released]
    · intro c other
      simp [other.symm]
  · intro a
    exact holding_replace cache.list released present rfl rfl id

end Buffers

/-! ## The blocks of a range -/

variable {offset len p : Nat} {e : Extent}

theorem extent_start : (extentOf offset len).start + offset % 512 = offset :=
  Nat.sub_add_cancel (Nat.mod_le offset 512)

theorem extent_stop :
    (extentOf offset len).stop = roundDownBlock ((offset + len) % 2 ^ 64) := by
  rw [extentOf]
  simp only [roundDownBlock, Nat.sub_add_cancel (Nat.mod_le offset 512)]

/-- A position of the loops from which on every block is taken from its beginning. -/
structure Extent.FromStart (e : Extent) (p : Nat) : Prop where
  whole : p % 512 = 0
  last : e.stop % 512 = 0
  bounded : e.stop + 512 < 2 ^ 64
  small : e.lastBlockLen < 512
  further : ∀ q, p ≤ q → e.offsetAt q = 0
  before : p ≤ e.stop

namespace Extent.FromStart

theorem fits (position : e.FromStart p) : e.offsetAt p + e.lenAt p ≤ BUFFER_SIZE := by
  rw [position.further p (Nat.le_refl p), Extent.lenAt, Nat.zero_add]
  split
  · exact Nat.le_of_lt position.small
  · exact Nat.le_refl _

theorem next (position : e.FromStart p) (more : p ≠ e.stop) : e.FromStart (p + 512) := by
  obtain ⟨whole, last, bounded, small, further, before⟩ := position
  exact ⟨by omega, last, bounded, small, fun q later => further q (by omega), by omega⟩

end Extent.FromStart

/-- A range that starts on a block boundary has all its blocks from their beginning. -/
theorem extent_aligned (bounded : offset + len < 2 ^ 64 - 512) (aligned : offset % 512 = 0) :
    (extentOf offset len).FromStart offset ∧ (extentOf offset len).start = offset ∧
      (extentOf offset len).stop - offset = len / 512 * 512 ∧
      len / 512 * 512 + (extentOf offset len).lastBlockLen = len := by
  have start := @extent_start offset len
  have stop := @extent_stop offset len
  rw [roundDownBlock] at stop
  dsimp only [BUFFER_SIZE] at stop
  have further : ∀ q, offset ≤ q → (extentOf offset len).offsetAt q = 0 := by
    intro q _
    rw [Extent.offsetAt]
    split
    · exact aligned
    · rfl
  exact ⟨⟨aligned, by omega, by omega, Nat.mod_lt len (by decide), further, by omega⟩, by omega,
    by omega, Nat.div_add_mod' len 512⟩

/-- A range inside one block has this block only. -/
theorem extent_inside (bounded : offset + len < 2 ^ 64 - 512) (inside : offset % 512 + len < 512) :
    (extentOf offset len).start % 512 = 0 ∧ (extentOf offset len).start + 512 < 2 ^ 64 ∧
      (extentOf offset len).stop = (extentOf offset len).start ∧
      (extentOf offset len).offsetAt (extentOf offset len).start = offset % 512 ∧
      (extentOf offset len).lenAt (extentOf offset len).start = len := by
  have start := @extent_start offset len
  have stop := @extent_stop offset len
  rw [roundDownBlock] at stop
  dsimp only [BUFFER_SIZE] at stop
  have one : (extentOf offset len).stop = (extentOf offset len).start := by omega
  have small : len < 512 := by omega
  refine ⟨by omega, by omega, one, if_pos rfl, ?_⟩
  rw [Extent.lenAt, if_pos one.symm]
  exact Nat.mod_eq_of_lt small

/-! ## The loop over the blocks -/

section Loop

variable {cache' : BioCache}

/-- A block whose part lies inside it is read, and its bytes are the device's. -/
theorem bio_read_block_returns (fresh : Fresh kmalloc) (supplies : Supplies kmalloc)
    (coherent : Coherent dev content flat none cache) (whole : p % BUFFER_SIZE = 0)
    (room : cache.list.length < MAX_BIO_CACHE ∨ content = flat)
    (inside : e.offsetAt p + e.lenAt p ≤ BUFFER_SIZE) :
    ∃ cache', bioReadBlock kmalloc e dev p cache =
        .ok (cache', slice flat (p + e.offsetAt p) (e.lenAt p)) ∧
      Coherent dev content flat none cache' ∧ cache'.list.length ≤ cache.list.length + 1 := by
  obtain ⟨cache₁, b, buf, reads, got, valid⟩ :=
    bio_cache_read_returns fresh supplies coherent whole (spares_of_room coherent room)
  obtain ⟨cache₂, releases, coherent', list, _⟩ :=
    bio_cache_release_returns got.coherent got.present
  have bytes : slice buf.data (e.offsetAt p) (e.lenAt p) =
      slice flat (p + e.offsetAt p) (e.lenAt p) := by
    apply slice_eq_iff.mpr
    intro k below
    rw [got.coherent.shown b buf got.present got.ofDev valid _ (by omega), got.ofAddr,
      Nat.add_assoc]
  refine ⟨cache₂, ?_, coherent', ?_⟩
  · rw [bioReadBlock, reads, bind_ok]
    dsimp only
    rw [deref_eq_ok.mpr got.present, bind_ok, copyData, if_pos inside, bind_ok, releases, bind_ok,
      bytes]
  · rw [list]
    exact got.longer

/-- A block that was read had its part inside the data array. -/
theorem bio_read_block_count {bytes : List UInt8}
    (reads : bioReadBlock kmalloc e dev p cache = .ok (cache', bytes)) :
    e.offsetAt p + e.lenAt p ≤ BUFFER_SIZE ∧ bytes.length = e.lenAt p := by
  obtain ⟨⟨cache₁, b⟩, _, rest⟩ := bind_eq_ok.mp reads
  obtain ⟨buf, _, rest⟩ := bind_eq_ok.mp rest
  obtain ⟨copied, copies, rest⟩ := bind_eq_ok.mp rest
  obtain ⟨cache₂, _, rest⟩ := bind_eq_ok.mp rest
  cases rest
  rw [copyData] at copies
  split at copies
  · rename_i inside
    cases copies
    exact ⟨inside, length_slice⟩
  · contradiction

/-- Whole blocks up to the last one, and the first bytes of that one. The bound on the turns and
the room in the cache count the blocks still to come. -/
theorem bio_read_loop_returns (fresh : Fresh kmalloc) (supplies : Supplies kmalloc)
    (turns : Nat) (copied : List UInt8) (coherent : Coherent dev content flat none cache)
    (position : e.FromStart p) (enough : (e.stop - p) / 512 + 1 < turns)
    (room : cache.list.length + (e.stop - p) / 512 < MAX_BIO_CACHE ∨ content = flat) :
    ∃ cache', bioReadLoop kmalloc e dev turns p cache copied =
        .ok (cache', copied ++ slice flat p (e.stop - p + e.lastBlockLen)) ∧
      Coherent dev content flat none cache' := by
  induction turns generalizing p cache copied with
  | zero => omega
  | succ turns ih =>
    have before := position.before
    have bounded := position.bounded
    have here : cache.list.length < MAX_BIO_CACHE ∨ content = flat := by
      rcases room with room | same
      · exact .inl (by omega)
      · exact .inr same
    obtain ⟨cache₁, reads, coherent₁, longer⟩ :=
      bio_read_block_returns fresh supplies coherent position.whole here position.fits
    rw [position.further p (Nat.le_refl p), Nat.add_zero] at reads
    rw [bioReadLoop, if_pos before, reads, bind_ok]
    dsimp only [BUFFER_SIZE]
    rw [Nat.mod_eq_of_lt (by omega)]
    by_cases final : p = e.stop
    · subst final
      rw [Extent.lenAt, if_pos rfl, Nat.sub_self, Nat.zero_add]
      obtain ⟨more, rfl⟩ : ∃ more, turns = more + 1 := ⟨turns - 1, by omega⟩
      rw [bioReadLoop, if_neg (by omega)]
      exact ⟨cache₁, rfl, coherent₁⟩
    · have next := position.next final
      have upper := next.before
      have room' : cache₁.list.length + (e.stop - (p + 512)) / 512 < MAX_BIO_CACHE ∨
          content = flat := by
        rcases room with room | same
        · exact .inl (by omega)
        · exact .inr same
      obtain ⟨cache₂, loops, coherent₂⟩ :=
        ih (copied ++ slice flat p (e.lenAt p)) coherent₁ next (by omega) room'
      refine ⟨cache₂, ?_, coherent₂⟩
      rw [loops, Extent.lenAt, if_neg final, List.append_assoc, ← slice_add]
      have sum : 512 + (e.stop - (p + 512) + e.lastBlockLen) =
          e.stop - p + e.lastBlockLen := by omega
      rw [sum]

/-- A loop that returns has met its end below the last block of the address space, and has copied
whole blocks up to the last one and a part of that one. -/
theorem bio_read_loop_count {turns : Nat} {copied out : List UInt8} (whole : p % 512 = 0)
    (last : e.stop % 512 = 0) (word : e.stop < 2 ^ 64) (before : p ≤ e.stop)
    (loops : bioReadLoop kmalloc e dev turns p cache copied = .ok (cache', out)) :
    e.stop + 512 < 2 ^ 64 ∧
      out.length = copied.length + (e.stop - p) + e.lastBlockLen := by
  induction turns generalizing p cache copied with
  | zero => simp [bioReadLoop] at loops
  | succ turns ih =>
    rw [bioReadLoop, if_pos before] at loops
    obtain ⟨⟨cache₁, bytes⟩, reads, loops⟩ := bind_eq_ok.mp loops
    dsimp only [BUFFER_SIZE] at loops
    have count := (bio_read_block_count reads).2
    by_cases final : p = e.stop
    · subst final
      rw [Extent.lenAt, if_pos rfl] at count
      by_cases wraps : e.stop + 512 = 2 ^ 64
      · -- The position wraps to zero and the loop starts over.
        have bounded := (ih (by omega) (by omega) loops).1
        omega
      · cases turns with
        | zero => simp [bioReadLoop] at loops
        | succ turns =>
          rw [bioReadLoop, if_neg (by omega)] at loops
          cases loops
          rw [List.length_append]
          exact ⟨by omega, by omega⟩
    · rw [Extent.lenAt, if_neg final] at count
      dsimp only [BUFFER_SIZE] at count
      obtain ⟨bounded, length⟩ := ih (by omega) (by omega) loops
      rw [List.length_append] at length
      exact ⟨bounded, by omega⟩

end Loop

/-! ## The whole read -/

/-- A range that starts on a block boundary, or lies inside one block, is read as it is. -/
theorem bio_read_returns (fresh : Fresh kmalloc) (supplies : Supplies kmalloc)
    (coherent : Coherent dev content flat none cache)
    (bounded : offset + len < 2 ^ 64 - 512)
    (split : offset % 512 = 0 ∨ offset % 512 + len < 512)
    (room : cache.list.length + len / 512 < MAX_BIO_CACHE ∨ content = flat) :
    ∃ turns cache', bioRead kmalloc turns cache dev offset len =
        .ok (cache', slice flat offset len) ∧
      Coherent dev content flat none cache' := by
  refine ⟨len / 512 + 2, ?_⟩
  rw [bioRead]
  rcases split with aligned | inside
  · -- All blocks are read from their beginning.
    obtain ⟨position, start, blocks, total⟩ := extent_aligned bounded aligned
    obtain ⟨cache', loops, coherent'⟩ := bio_read_loop_returns fresh supplies
      (len / 512 + 2) [] coherent position
      (by rw [blocks]; omega)
      (by rwa [blocks, Nat.mul_div_cancel _ (by decide)])
    rw [start, loops, blocks, total]
    exact ⟨cache', rfl, coherent'⟩
  · -- There is only one block.
    obtain ⟨whole, below, one, first, part⟩ := extent_inside bounded inside
    have start := @extent_start offset len
    have room' : cache.list.length < MAX_BIO_CACHE ∨ content = flat := by
      rcases room with room | same
      · exact .inl (by omega)
      · exact .inr same
    obtain ⟨cache', reads, coherent', _⟩ := bio_read_block_returns fresh supplies coherent
      whole room' (by rw [part, first]; exact Nat.le_of_lt inside)
    rw [part, first, start] at reads
    rw [bioReadLoop, if_pos (Nat.le_of_eq one.symm), reads, bind_ok]
    dsimp only [BUFFER_SIZE]
    rw [bioReadLoop, if_neg (by rw [Nat.mod_eq_of_lt below]; omega)]
    exact ⟨cache', rfl, coherent'⟩

/-- `bio_read` copies the range of the device that it was asked for. -/
def BioReads (kmalloc : BioCache → Option Nat) (cache : BioCache) (dev : Nat)
    (content : Nat → UInt8) (offset len : Nat) : Prop :=
  ∃ turns cache', bioRead kmalloc turns cache dev offset len =
    .ok (cache', slice content offset len)

/-- A read that returned the range had a range that starts on a block boundary or lies inside one
block. If the sum of offset and length wraps, a read that returns copies less than it was asked
for; and a first block read from its middle to beyond its end is a fault. -/
theorem bio_read_range {turns : Nat} {cache' : BioCache} (offset_lt : offset < 2 ^ 64)
    (reads : bioRead kmalloc turns cache dev offset len = .ok (cache', slice content offset len)) :
    offset + len < 2 ^ 64 - 512 ∧ (offset % 512 = 0 ∨ offset % 512 + len < 512) := by
  have start := @extent_start offset len
  have stop := @extent_stop offset len
  have last : (extentOf offset len).lastBlockLen = len % 512 := rfl
  rw [roundDownBlock] at stop
  dsimp only [BUFFER_SIZE] at stop
  rw [bioRead] at reads
  by_cases before : (extentOf offset len).start ≤ (extentOf offset len).stop
  · obtain ⟨bounded, count⟩ := bio_read_loop_count (by omega) (by omega) (by omega) before reads
    rw [length_slice, List.length_nil] at count
    by_contra crossing
    have later : (extentOf offset len).start ≠ (extentOf offset len).stop := by omega
    cases turns with
    | zero => simp [bioReadLoop] at reads
    | succ turns =>
      rw [bioReadLoop, if_pos before] at reads
      obtain ⟨⟨cache₁, bytes⟩, block, _⟩ := bind_eq_ok.mp reads
      have inside := (bio_read_block_count block).1
      rw [Extent.offsetAt, if_pos rfl, Extent.lenAt, if_neg later] at inside
      have first : (extentOf offset len).firstBlockOffset = offset % 512 := rfl
      omega
  · -- Nothing is copied, but the sum wrapped, so something was asked for.
    cases turns with
    | zero => simp [bioReadLoop] at reads
    | succ turns =>
      rw [bioReadLoop, if_neg before] at reads
      have none := congrArg List.length (Prod.mk.inj (Except.ok.inj reads)).2
      rw [length_slice, List.length_nil] at none
      omega

/-- `bio_read` copies the range exactly when the range starts on a block boundary or lies inside
one block, and ends below the last block of the address space. -/
theorem bio_read_iff (fresh : Fresh kmalloc) (supplies : Supplies kmalloc)
    (coherent : Coherent dev content content none cache) (offset_lt : offset < 2 ^ 64) :
    BioReads kmalloc cache dev content offset len ↔
      offset + len < 2 ^ 64 - 512 ∧ (offset % 512 = 0 ∨ offset % 512 + len < 512) := by
  constructor
  · rintro ⟨turns, cache', reads⟩
    exact bio_read_range offset_lt reads
  · rintro ⟨bounded, split⟩
    obtain ⟨turns, cache', reads, _⟩ :=
      bio_read_returns fresh supplies coherent bounded split (.inr rfl)
    exact ⟨turns, cache', reads⟩

/-! ## An idle machine -/

/-- An allocator that gives the address behind all buffers. -/
def addressBehind (cache : BioCache) : Option Nat :=
  let b := cache.list.foldr max 0 + 1
  if (cache.buffer b).isNone then some b else none

theorem address_behind_fresh : Fresh addressBehind := by
  intro cache b gives
  rw [addressBehind] at gives
  split at gives
  · rename_i free
    cases gives
    exact Option.isNone_iff_eq_none.mp free
  · contradiction

theorem le_foldr_max {list : List Nat} (member : b ∈ list) : b ≤ list.foldr max 0 := by
  induction list with
  | nil => contradiction
  | cons first rest ih =>
    rcases List.mem_cons.mp member with rfl | member
    · exact Nat.le_max_left _ _
    · exact Nat.le_trans (ih member) (Nat.le_max_right _ _)

theorem address_behind_supplies : Supplies addressBehind := by
  intro cache linked
  have free : cache.buffer (cache.list.foldr max 0 + 1) = none := by
    apply Option.eq_none_iff_forall_ne_some.mpr
    intro buf present
    have below := le_foldr_max ((linked _).mpr ⟨buf, present⟩)
    omega
  exact ⟨cache.list.foldr max 0 + 1, by simp [addressBehind, free]⟩

theorem coherent_init (content : Nat → UInt8) :
    Coherent 0 content content none (bioInit (oneDisk content)) := by
  constructor
  case shape => constructor <;> simp [bioInit]
  case device => rfl
  all_goals simp [bioInit]

theorem two_blocks_read : BioReads addressBehind (bioInit (oneDisk fun _ => 7)) 0 (fun _ => 7)
    512 1024 :=
  (bio_read_iff address_behind_fresh address_behind_supplies (coherent_init _) (by decide)).mpr
    (by decide)

/-- A block's worth of bytes from the second byte on is not read. -/
theorem straddling_read_fails :
    ¬ BioReads addressBehind (bioInit (oneDisk fun _ => 7)) 0 (fun _ => 7) 1 512 := by
  rintro ⟨turns, cache', reads⟩
  exact absurd (bio_read_range (by decide) reads) (by decide)

end Mftt
