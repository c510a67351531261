import Mftt.BufferedReads

/-!
# Writing a buffered device

`bio_write` changes the data of buffers and nothing else: it marks no buffer dirty, so what
it wrote is lost when the buffer is evicted, and a whole block that was not in the cache
is written into a buffer that is not valid, so the next read of the block takes it from the
device again. A write is seen by the reads after it as long as neither happens: when no
call makes a buffer go that differs from the device, and when the whole blocks of a write
are already in the cache and valid.
-/

namespace Mftt

open Slices

variable {kmalloc : BioCache → Option Nat} {dev : Nat} {content flat : Nat → UInt8}
  {cache : BioCache}

variable {e : Extent} {offset : Nat} {bytes source : List UInt8}

section Blocks

variable {b p : Nat} {buf : Buffer}

/-- Bytes put into a valid buffer are put into what the cache shows of the device. -/
theorem coherent_write (coherent : Coherent dev content flat (some b) cache)
    (present : cache.buffer b = some buf) (ofDev : buf.dev = dev) (valid : buf.valid = true)
    (inside : offset + bytes.length ≤ BUFFER_SIZE) :
    Coherent dev content (overwrite flat (buf.addr + offset) bytes) (some b)
      (cache.replace cache.list b { buf with data := overwrite buf.data offset bytes }) := by
  have whole := coherent.aligned b buf present
  dsimp only [BUFFER_SIZE] at inside whole
  -- Outside the block of the buffer nothing changes.
  have elsewhere : ∀ a k, a % 512 = 0 → k < 512 → a ≠ buf.addr →
      overwrite flat (buf.addr + offset) bytes (a + k) = flat (a + k) := by
    intro a k aligned below other
    apply overwrite_outside
    omega
  constructor
  case shape =>
    exact shape_replace coherent.shape present (List.Perm.refl _) rfl rfl rfl
  case device => exact coherent.device
  case aligned =>
    intro c found at_c
    rcases replace_cases at_c with ⟨_, rfl⟩ | ⟨_, same⟩
    · exact coherent.aligned b buf present
    · exact coherent.aligned c found same
  case locked =>
    intro c found at_c
    rcases replace_cases at_c with ⟨rfl, rfl⟩ | ⟨_, same⟩
    · exact coherent.locked c buf present
    · exact coherent.locked c found same
  case shown =>
    intro c found at_c dev_eq valid_c k below
    rcases replace_cases at_c with ⟨rfl, rfl⟩ | ⟨other, same⟩
    · exact overwrite_shift bytes (coherent.shown c buf present ofDev valid k below)
    · rw [elsewhere _ _ (coherent.aligned c found same) below ?_]
      · exact coherent.shown c found same dev_eq valid_c k below
      · intro same_addr
        exact other (coherent.shape.distinct c b found buf same present
          (dev_eq.trans ofDev.symm) same_addr)
  case stored =>
    intro a aligned none k below
    have other : a ≠ buf.addr := by
      rintro rfl
      have invalid := none b _ (replace_buffer_self ..) ofDev rfl
      rw [valid] at invalid
      contradiction
    rw [elsewhere a k aligned below other]
    apply coherent.stored a aligned _ k below
    intro c found at_c dev_eq addr_eq
    have different : c ≠ b := by
      rintro rfl
      cases present.symm.trans at_c
      exact other addr_eq.symm
    exact none c found ((replace_buffer_of_ne _ _ _ different).trans at_c) dev_eq addr_eq

/-- A block is written into a valid buffer: one that was read first, or one that was in the cache
and valid before. -/
theorem bio_write_block_returns (fresh : Fresh kmalloc) (supplies : Supplies kmalloc)
    (coherent : Coherent dev content flat none cache) (whole : p % BUFFER_SIZE = 0)
    (room : cache.Spares dev p) (inside : e.offsetAt p + e.lenAt p ≤ BUFFER_SIZE)
    (bytes : e.lenAt p ≤ source.length) (held : e.lenAt p = BUFFER_SIZE → cache.Holding dev p) :
    ∃ cache', bioWriteBlock kmalloc e dev p cache source =
        .ok (cache', source.drop (e.lenAt p)) ∧
      Coherent dev content
        (overwrite flat (p + e.offsetAt p) (source.take (e.lenAt p))) none cache' ∧
      (cache.Holding dev p → cache'.list.length ≤ cache.list.length ∧
        ∀ a, cache.Holding dev a → cache'.Holding dev a) := by
  have gets : ∃ cache₁ b buf,
      (if e.offsetAt p ≠ 0 ∨ e.lenAt p ≠ BUFFER_SIZE then bioCacheRead kmalloc cache dev p
        else bioCacheGetLocked kmalloc cache dev p) = .ok (cache₁, b) ∧
      Obtained dev content flat (some b) cache cache₁ p b buf ∧ buf.valid = true := by
    split
    · exact bio_cache_read_returns fresh supplies coherent whole room
    · rename_i full
      obtain ⟨cache₁, b, buf, gets, got⟩ :=
        bio_cache_get_locked_returns fresh supplies coherent whole room
      have all : e.lenAt p = BUFFER_SIZE := not_not.mp (not_or.mp full).2
      exact ⟨cache₁, b, buf, gets, got, got.valid (held all)⟩
  obtain ⟨cache₁, b, buf, gets, got, valid⟩ := gets
  have length : (source.take (e.lenAt p)).length = e.lenAt p := by
    rw [List.length_take, Nat.min_eq_left bytes]
  have fits : e.offsetAt p + (source.take (e.lenAt p)).length ≤ BUFFER_SIZE := by rwa [length]
  have written := coherent_write got.coherent got.present got.ofDev valid fits
  obtain ⟨cache₂, releases, coherent', list, kept⟩ :=
    bio_cache_release_returns written (replace_buffer_self ..)
  refine ⟨cache₂, ?_, ?_, fun here => ⟨?_, fun a holding => ?_⟩⟩
  · rw [bioWriteBlock, gets, bind_ok]
    dsimp only
    rw [deref_eq_ok.mpr got.present, bind_ok, pasteData, if_pos fits, bind_ok,
      modify_eq _ got.present, bind_ok, releases, bind_ok]
  · rwa [got.ofAddr] at coherent'
  · rw [list]
    exact got.same here
  · apply kept
    apply holding_replace _ _ got.present _ _ _ (got.kept here a holding)
    · rfl
    · rfl
    · exact id

end Blocks

/-! ## The whole write -/

/-- Whole blocks up to the last one, and the first bytes of that one. -/
theorem bio_write_loop_returns (fresh : Fresh kmalloc) (supplies : Supplies kmalloc) {p : Nat}
    (turns : Nat) (coherent : Coherent dev content flat none cache) (position : e.FromStart p)
    (length : source.length = e.stop - p + e.lastBlockLen) (enough : (e.stop - p) / 512 + 1 < turns)
    (room : cache.list.length < MAX_BIO_CACHE ∨ cache.Holding dev e.stop ∨
      p = e.stop ∧ ∀ b, cache.toDelete = some b → cache.Settled dev b)
    (held : ∀ q, q % 512 = 0 → p ≤ q → q < e.stop → cache.Holding dev q) :
    ∃ cache', bioWriteLoop kmalloc e dev turns p cache source = .ok cache' ∧
      Coherent dev content (overwrite flat p source) none cache' := by
  induction turns generalizing p cache source flat with
  | zero => omega
  | succ turns ih =>
    have ⟨whole, last, bounded, small, further, before⟩ := position
    have bytes : e.lenAt p ≤ source.length := by
      rw [Extent.lenAt]
      dsimp only [BUFFER_SIZE]
      split
      · omega
      · omega
    have ready : e.lenAt p = BUFFER_SIZE → cache.Holding dev p := by
      intro full
      rw [Extent.lenAt] at full
      dsimp only [BUFFER_SIZE] at full
      split at full
      · omega
      · exact held p whole (Nat.le_refl p) (by omega)
    have spares : cache.Spares dev p := by
      by_cases final : p = e.stop
      · rw [← final] at room
        exact room.imp_right (Or.imp_right And.right)
      · exact .inr (.inl (held p whole (Nat.le_refl p) (by omega)))
    obtain ⟨cache₁, writes, coherent₁, kept⟩ :=
      bio_write_block_returns fresh supplies coherent whole spares position.fits bytes ready
    rw [further p (Nat.le_refl p), Nat.add_zero] at coherent₁
    rw [bioWriteLoop, if_pos before, writes, bind_ok]
    dsimp only [BUFFER_SIZE]
    rw [Nat.mod_eq_of_lt (by omega)]
    by_cases final : p = e.stop
    · subst final
      obtain ⟨more, rfl⟩ : ∃ more, turns = more + 1 := ⟨turns - 1, by omega⟩
      rw [Extent.lenAt, if_pos rfl, List.take_of_length_le (by omega)] at coherent₁
      rw [bioWriteLoop, if_neg (by omega)]
      exact ⟨cache₁, rfl, coherent₁⟩
    · have next := position.next final
      have len : e.lenAt p = 512 := if_neg final
      rw [len] at coherent₁ bytes ⊢
      have rest : (source.drop 512).length = e.stop - (p + 512) + e.lastBlockLen := by
        rw [List.length_drop]
        omega
      -- A whole block was in the cache, so no other one had to go.
      obtain ⟨same, kept⟩ := kept (held p whole (Nat.le_refl p) (by omega))
      have room₁ : cache₁.list.length < MAX_BIO_CACHE ∨ cache₁.Holding dev e.stop :=
        room.imp same.trans_lt fun other => kept _ (other.resolve_right fun one => final one.1)
      obtain ⟨cache₂, loops, coherent₂⟩ := ih coherent₁ next rest (by omega)
        (room₁.imp_right .inl) (fun q aligned lower upper => kept q (held q aligned (by omega) upper))
      refine ⟨cache₂, loops, ?_⟩
      have taken : (source.take 512).length = 512 := by
        rw [List.length_take, Nat.min_eq_left bytes]
      have joined := @overwrite_append _ flat p (source.take 512) (source.drop 512)
      rw [taken, List.take_append_drop] at joined
      rwa [joined] at coherent₂

/-- The condition under which a write is seen by the reads after it: its range starts on a block
boundary or lies inside one block; the cache has the blocks that are written as a whole; and it
has room for the last block, or has it, or there is only one block and the device has the bytes of
the buffer that goes. -/
structure WriteKept (cache : BioCache) (dev offset len : Nat) : Prop where
  bounded : offset + len < 2 ^ 64 - 512
  split : offset % 512 = 0 ∨ offset % 512 + len < 512
  room : cache.list.length < MAX_BIO_CACHE ∨ cache.Holding dev ((offset + len) / 512 * 512) ∨
    offset % 512 + len < 512 ∧ ∀ b, cache.toDelete = some b → cache.Settled dev b
  held : ∀ q, q % 512 = 0 → offset ≤ q → q + 512 ≤ offset + len → cache.Holding dev q

/-- A careful write returns, and the cache shows the bytes written. -/
theorem bio_write_returns (fresh : Fresh kmalloc) (supplies : Supplies kmalloc)
    (coherent : Coherent dev content flat none cache)
    (kept : WriteKept cache dev offset bytes.length) :
    ∃ turns cache', bioWrite kmalloc turns cache dev offset bytes = .ok cache' ∧
      Coherent dev content (overwrite flat offset bytes) none cache' := by
  obtain ⟨bounded, split, room, held⟩ := kept
  generalize len_eq : bytes.length = len at *
  refine ⟨len / 512 + 2, ?_⟩
  rw [bioWrite, len_eq]
  have stop : (extentOf offset len).stop = (offset + len) / 512 * 512 := by
    rw [extent_stop, roundDownBlock, Nat.mod_eq_of_lt (by omega)]
    dsimp only [BUFFER_SIZE]
    omega
  rw [← stop] at room
  rcases split with aligned | inside
  · obtain ⟨position, start, blocks, total⟩ := extent_aligned bounded aligned
    rw [start]
    exact bio_write_loop_returns fresh supplies (len / 512 + 2) coherent position (by omega)
      (by rw [blocks]; omega)
      (room.imp_right (Or.imp_right (And.imp_left fun one => by omega)))
      (fun q whole lower upper => held q whole lower (by omega))
  · obtain ⟨whole, below, one, first, part⟩ := extent_inside bounded inside
    have start := @extent_start offset len
    have fits : (extentOf offset len).offsetAt (extentOf offset len).start +
        (extentOf offset len).lenAt (extentOf offset len).start ≤ BUFFER_SIZE := by
      rw [part, first]
      exact Nat.le_of_lt inside
    have short : (extentOf offset len).lenAt (extentOf offset len).start = BUFFER_SIZE →
        cache.Holding dev (extentOf offset len).start := by
      dsimp only [BUFFER_SIZE]
      omega
    rw [one] at room
    obtain ⟨cache', writes, coherent', _⟩ := bio_write_block_returns fresh supplies coherent
      whole (room.imp_right (Or.imp_right And.right)) fits (by omega : _ ≤ bytes.length) short
    rw [first, start, List.take_of_length_le (by omega)] at coherent'
    rw [bioWriteLoop, if_pos (Nat.le_of_eq one.symm), writes, bind_ok]
    dsimp only [BUFFER_SIZE]
    rw [bioWriteLoop, if_neg (by rw [Nat.mod_eq_of_lt below]; omega)]
    exact ⟨cache', rfl, coherent'⟩

/-! ## Histories of reads and writes -/

/-- An operation on the device file, or the eviction of a buffer that other users of the cache
cause in between. -/
inductive BioOp where
  | read (offset len : Nat)
  | write (offset : Nat) (bytes : List UInt8)
  | evict (b : Nat)
  deriving DecidableEq

/-- What a flat byte array holds after an operation. -/
def BioOp.onFlat (flat : Nat → UInt8) : BioOp → Nat → UInt8
  | read _ _ | evict _ => flat
  | write offset bytes => overwrite flat offset bytes

/-- What a flat byte array holds after operations. -/
def flatAfter (flat : Nat → UInt8) (ops : List BioOp) : Nat → UInt8 := ops.foldl BioOp.onFlat flat

/-- The condition under which a read finds what was written: its range starts on a block boundary
or lies inside one block, and either the cache has room for its blocks or the device has the bytes
of every buffer. -/
structure ReadKept (cache : BioCache) (dev offset len : Nat) : Prop where
  bounded : offset + len < 2 ^ 64 - 512
  split : offset % 512 = 0 ∨ offset % 512 + len < 512
  room : cache.list.length + len / 512 < MAX_BIO_CACHE ∨ ∀ b, cache.Settled dev b

/-- Histories of calls that return, each of which meets its condition when it is made. -/
inductive CarefulHistory (dev : Nat) (start : BioCache) : List BioOp → BioCache → Prop where
  | start : CarefulHistory dev start [] start
  | read {kmalloc ops cache cache' turns offset len out} (fresh : Fresh kmalloc)
      (supplies : Supplies kmalloc) : CarefulHistory dev start ops cache →
      ReadKept cache dev offset len →
      bioRead kmalloc turns cache dev offset len = .ok (cache', out) →
      CarefulHistory dev start (ops ++ [.read offset len]) cache'
  | write {kmalloc ops cache cache' turns offset bytes} (fresh : Fresh kmalloc)
      (supplies : Supplies kmalloc) : CarefulHistory dev start ops cache →
      WriteKept cache dev offset bytes.length →
      bioWrite kmalloc turns cache dev offset bytes = .ok cache' →
      CarefulHistory dev start (ops ++ [.write offset bytes]) cache'
  | evict {ops cache b} : CarefulHistory dev start ops cache → cache.Settled dev b →
      CarefulHistory dev start (ops ++ [.evict b]) (cache.remove b)

section Histories

variable {start : BioCache}

theorem flat_after_snoc (ops : List BioOp) (op : BioOp) :
    flatAfter flat (ops ++ [op]) = op.onFlat (flatAfter flat ops) := by
  rw [flatAfter, flatAfter, List.foldl_append, List.foldl_cons, List.foldl_nil]

/-- Where the device has the bytes of every buffer, it has all the bytes. -/
theorem content_of_settled (coherent : Coherent dev content flat none cache)
    (settled : ∀ b, cache.Settled dev b) : content = flat := by
  funext k
  have whole : (k - k % 512) % 512 = 0 := by omega
  have below : k % 512 < BUFFER_SIZE := Nat.mod_lt k (by decide)
  have split : k - k % 512 + k % 512 = k := Nat.sub_add_cancel (Nat.mod_le k 512)
  by_cases held : cache.Holding dev (k - k % 512)
  · obtain ⟨b, buf, present, ofDev, ofAddr, valid⟩ := held
    have stored := settled b buf content present ofDev valid coherent.device _ below
    have shown := coherent.shown b buf present ofDev valid _ below
    rw [ofAddr, split] at stored shown
    rw [← stored, shown]
  · have stored := coherent.stored _ whole ?_ _ below
    · rwa [split] at stored
    · intro b buf present ofDev ofAddr
      by_contra valid
      exact held ⟨b, buf, present, ofDev, ofAddr, Bool.not_eq_false _ ▸ valid⟩

theorem bio_read_loop_more {turns p : Nat} {copied : List UInt8} {result : BioCache × List UInt8}
    (more : Nat) (loops : bioReadLoop kmalloc e dev turns p cache copied = .ok result) :
    bioReadLoop kmalloc e dev (turns + more) p cache copied = .ok result := by
  induction turns generalizing p cache copied with
  | zero => simp [bioReadLoop] at loops
  | succ turns ih =>
    rw [Nat.succ_add, bioReadLoop]
    rw [bioReadLoop] at loops
    split
    · rename_i before
      rw [if_pos before] at loops
      obtain ⟨⟨cache₁, bytes⟩, reads, loops⟩ := bind_eq_ok.mp loops
      rw [reads]
      exact ih loops
    · rename_i past
      rwa [if_neg past] at loops

theorem bio_write_loop_more {turns p : Nat} {result : BioCache} (more : Nat)
    (loops : bioWriteLoop kmalloc e dev turns p cache source = .ok result) :
    bioWriteLoop kmalloc e dev (turns + more) p cache source = .ok result := by
  induction turns generalizing p cache source with
  | zero => simp [bioWriteLoop] at loops
  | succ turns ih =>
    rw [Nat.succ_add, bioWriteLoop]
    rw [bioWriteLoop] at loops
    split
    · rename_i before
      rw [if_pos before] at loops
      obtain ⟨⟨cache₁, rest⟩, writes, loops⟩ := bind_eq_ok.mp loops
      rw [writes]
      exact ih loops
    · rename_i past
      rwa [if_neg past] at loops

/-- A careful read returns the bytes the cache shows, and nothing else. -/
theorem careful_read (fresh : Fresh kmalloc) (supplies : Supplies kmalloc)
    (coherent : Coherent dev content flat none cache) {len : Nat}
    (kept : ReadKept cache dev offset len) :
    (∃ turns cache', bioRead kmalloc turns cache dev offset len =
      .ok (cache', slice flat offset len)) ∧
    ∀ turns cache' out, bioRead kmalloc turns cache dev offset len = .ok (cache', out) →
      out = slice flat offset len ∧ Coherent dev content flat none cache' := by
  have room : cache.list.length + len / 512 < MAX_BIO_CACHE ∨ content = flat := by
    rcases kept.room with room | settled
    · exact .inl room
    · exact .inr (content_of_settled coherent settled)
  obtain ⟨turns, cache₁, reads, coherent₁⟩ :=
    bio_read_returns fresh supplies coherent kept.bounded kept.split room
  refine ⟨⟨turns, cache₁, reads⟩, ?_⟩
  intro turns' cache' out reads'
  have left := bio_read_loop_more turns' reads
  have right := bio_read_loop_more turns reads'
  rw [Nat.add_comm, left] at right
  cases right
  exact ⟨rfl, coherent₁⟩

theorem careful_write (fresh : Fresh kmalloc) (supplies : Supplies kmalloc)
    (coherent : Coherent dev content flat none cache) {turns : Nat} {cache' : BioCache}
    (kept : WriteKept cache dev offset bytes.length)
    (writes : bioWrite kmalloc turns cache dev offset bytes = .ok cache') :
    Coherent dev content (overwrite flat offset bytes) none cache' := by
  obtain ⟨turns', cache₁, writes', coherent₁⟩ := bio_write_returns fresh supplies coherent kept
  have left := bio_write_loop_more turns' writes
  have right := bio_write_loop_more turns writes'
  rw [Nat.add_comm, right] at left
  cases left
  exact coherent₁

/-- Through a careful history the cache shows what a flat byte array would hold. -/
theorem coherent_history (coherent : Coherent dev content content none start) {ops : List BioOp}
    (history : CarefulHistory dev start ops cache) :
    Coherent dev content (flatAfter content ops) none cache := by
  induction history with
  | start => exact coherent
  | read fresh supplies _ kept reads ih =>
    rw [flat_after_snoc]
    exact ((careful_read fresh supplies ih kept).2 _ _ _ reads).2
  | write fresh supplies _ kept writes ih =>
    rw [flat_after_snoc]
    exact careful_write fresh supplies ih kept writes
  | evict _ settled ih =>
    rw [flat_after_snoc]
    exact coherent_remove ih fun buf present ofDev valid =>
      settled buf content present ofDev valid ih.device

/-- After a careful history each careful read returns exactly what a flat byte array would hold,
and each careful write returns. -/
theorem careful_histories_flat (coherent : Coherent dev content content none start)
    {ops : List BioOp} (history : CarefulHistory dev start ops cache) (fresh : Fresh kmalloc)
    (supplies : Supplies kmalloc) :
    (∀ offset len, ReadKept cache dev offset len →
      (∃ turns cache', bioRead kmalloc turns cache dev offset len =
        .ok (cache', slice (flatAfter content ops) offset len)) ∧
      ∀ turns cache' out, bioRead kmalloc turns cache dev offset len = .ok (cache', out) →
        out = slice (flatAfter content ops) offset len) ∧
    ∀ offset bytes, WriteKept cache dev offset bytes.length →
      ∃ turns cache', bioWrite kmalloc turns cache dev offset bytes = .ok cache' := by
  have shows := coherent_history coherent history
  constructor
  · intro offset len kept
    obtain ⟨returns, only⟩ := careful_read fresh supplies shows kept
    exact ⟨returns, fun turns cache' out reads => (only turns cache' out reads).1⟩
  · intro offset bytes kept
    obtain ⟨turns, cache', writes, _⟩ := bio_write_returns fresh supplies shows kept
    exact ⟨turns, cache', writes⟩

end Histories

set_option maxRecDepth 20000 in
theorem two_bytes_written : ∃ cache,
    bioWrite addressBehind 2 (bioInit (oneDisk fun _ => 7)) 0 10 [1, 2] = .ok cache ∧
      cache.list = [1] :=
  ⟨_, rfl, rfl⟩

/-- Two bytes written into a block are read back. -/
theorem two_bytes_kept : ∃ cache turns cache',
    CarefulHistory 0 (bioInit (oneDisk fun _ => 7)) [.write 10 [1, 2]] cache ∧
      bioRead addressBehind turns cache 0 10 2 = .ok (cache', [1, 2]) := by
  obtain ⟨cache, writes, list⟩ := two_bytes_written
  have kept : WriteKept (bioInit (oneDisk fun _ => 7)) 0 10 [(1 : UInt8), 2].length := by
    refine ⟨by decide, by decide, .inl (by decide), ?_⟩
    intro q whole lower upper
    simp only [List.length_cons, List.length_nil] at upper
    omega
  have history : CarefulHistory 0 (bioInit (oneDisk fun _ => 7)) [.write 10 [1, 2]] cache :=
    .write address_behind_fresh address_behind_supplies .start kept writes
  have room : ReadKept cache 0 10 2 := ⟨by decide, by decide, .inl (by rw [list]; decide)⟩
  obtain ⟨⟨turns, cache', reads⟩, _⟩ := (careful_histories_flat (coherent_init _) history
    address_behind_fresh address_behind_supplies).1 10 2 room
  exact ⟨cache, turns, cache', history, reads⟩

def wholeBlock : List UInt8 := List.replicate 512 1

set_option maxRecDepth 20000 in
/-- A whole block written to an empty cache is read back as the device had it. -/
theorem whole_block_lost : ∃ cache₁ cache₂ out,
    bioWrite addressBehind 3 (bioInit (oneDisk fun _ => 0)) 0 0 wholeBlock = .ok cache₁ ∧
    bioRead addressBehind 3 cache₁ 0 0 512 = .ok (cache₂, out) ∧
    out ≠ slice (flatAfter (fun _ => 0) [.write 0 wholeBlock]) 0 512 :=
  ⟨_, _, _, rfl, rfl, fun same => absurd (congrArg List.head? same) (by decide)⟩

end Mftt
