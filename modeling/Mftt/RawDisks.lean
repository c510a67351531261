import Mftt.BootMemory
import Mftt.Slices
import Mftt.UserCopy

/-!
# Byte ranges of the raw disks

The SD card and the virtio disk move whole sectors. Their files read and write any range of bytes,
through a buffer that holds the sectors around the range. The drivers of the sectors are taken to
move what they are asked for; what the routines here make of it is compared with the transfer of
the range itself.

A read through the buffer of the SD card is right unless a short range crosses a sector. A write
of a part of a sector copies in the wrong direction, and leaves the card as it was. The write path
of the virtio disk that the block cache uses puts zeros in place of the data.
-/

namespace Mftt.RawDisk

open Slices

/-- The content of a disk, and the buffer of the caller from its start on. -/
@[ext] structure Transfer where
  disk : Nat → UInt8
  buf : Nat → UInt8

/-- The transfer of a range of bytes: `func` says whether it is written. -/
def Transfer.range (t : Transfer) (func : Bool) (offset len : Nat) : Transfer :=
  if func then { t with disk := overwrite t.disk offset (slice t.buf 0 len) }
  else { t with buf := overwrite t.buf 0 (slice t.disk offset len) }

/-! ## The SD card -/

section SdCard

/-- The sector that `sdcard_read_sector` puts into the buffer; a card has at most `2 ^ 32`. -/
def sdcardReadSector (disk : Nat → UInt8) (sectorno : BitVec 32) (k : Nat) : UInt8 :=
  disk (sectorno.toNat * SECTOR_SIZE + k)

/-- `sdcard_write_sector`. -/
def sdcardWriteSector (disk : Nat → UInt8) (sectorno : BitVec 32) (kbuf : Nat → UInt8) :
    Nat → UInt8 :=
  overwrite disk (sectorno.toNat * SECTOR_SIZE) (slice kbuf 0 SECTOR_SIZE)

/-- `copy_size`. -/
def copySize (offset remain : Nat) : Nat :=
  if SECTOR_SIZE < remain then SECTOR_SIZE - offset % SECTOR_SIZE else remain

/-- `memcpy(buf, kbuf + s, copy_size)`, which must stay in the buffer of one sector. -/
def copyOut (t : Transfer) (pos : Nat) (kbuf : Nat → UInt8) (s copySize : Nat) :
    Except Fault Transfer :=
  if s + copySize ≤ SECTOR_SIZE then
    .ok { t with buf := overwrite t.buf pos (slice kbuf s copySize) }
  else .error .outOfBounds

/-- One turn of the loop of `sdcard_disk_rw_lba`; `pos` is how far `buf` was moved. -/
def sdcardTurn (func : Bool) (offset pos remain : Nat) (t : Transfer) : Except Fault Transfer :=
  let sector := BitVec.ofNat 32 (offset / SECTOR_SIZE)
  let s := offset % SECTOR_SIZE
  if func then
    if copySize offset remain ≠ SECTOR_SIZE then
      let kbuf := sdcardReadSector t.disk sector
      copyOut t pos kbuf s (copySize offset remain) >>= fun t =>
        .ok { t with disk := sdcardWriteSector t.disk sector kbuf }
    else .ok { t with disk := sdcardWriteSector t.disk sector fun k => t.buf (pos + k) }
  else copyOut t pos (sdcardReadSector t.disk sector) s (copySize offset remain)

/-- The loop of `sdcard_disk_rw_lba`. -/
def sdcardLoop (func : Bool) : Nat → Nat → Nat → Nat → Transfer → Except Fault Transfer
  | 0, _, _, remain, t => if remain = 0 then .ok t else .error .unfinished
  | turns + 1, offset, pos, remain, t =>
    if remain = 0 then .ok t
    else
      sdcardTurn func offset pos remain t >>=
        sdcardLoop func turns (offset + copySize offset remain) (pos + copySize offset remain)
          (remain - copySize offset remain)

/-- `sdcard_disk_rw_lba`; `kmalloc` says whether the buffer of one sector is supplied. -/
def sdcardDiskRwLba (kmalloc : Bool) (offset len : Nat) (func : Bool) (t : Transfer) :
    Except Fault Transfer :=
  if kmalloc then sdcardLoop func len offset 0 len t else .error .nullPointer

variable {t : Transfer} {turns offset pos remain len : Nat}

/-- The part of a sector that a range covers. -/
theorem slice_sector (disk : Nat → UInt8) (inside : offset < 2 ^ 41) (count : Nat) :
    slice (sdcardReadSector disk (BitVec.ofNat 32 (offset / SECTOR_SIZE))) (offset % SECTOR_SIZE)
      count = slice disk offset count := by
  refine slice_eq_iff.mpr fun k _ => ?_
  rw [sdcardReadSector, BitVec.toNat_ofNat]
  congr 1
  simp only [SECTOR_SIZE]
  omega

theorem write_sector_back (disk : Nat → UInt8) (sectorno : BitVec 32) :
    sdcardWriteSector disk sectorno (sdcardReadSector disk sectorno) = disk := by
  have same : slice (sdcardReadSector disk sectorno) 0 SECTOR_SIZE =
      slice disk (sectorno.toNat * SECTOR_SIZE) SECTOR_SIZE :=
    slice_eq_iff.mpr fun k _ => by rw [sdcardReadSector, Nat.zero_add]
  rw [sdcardWriteSector, same, overwrite_slice]

theorem sdcard_loop_succ (func : Bool) (some : remain ≠ 0) :
    sdcardLoop func (turns + 1) offset pos remain t =
      sdcardTurn func offset pos remain t >>=
        sdcardLoop func turns (offset + copySize offset remain) (pos + copySize offset remain)
          (remain - copySize offset remain) := by
  rw [sdcardLoop, if_neg some]

theorem sdcard_loop_done (func : Bool) : sdcardLoop func turns offset pos 0 t = .ok t := by
  cases turns <;> rw [sdcardLoop, if_pos rfl]

/-- A turn that reads, or that writes a part of a sector, copies the card into the buffer. -/
theorem turn_copies {func : Bool} (inside : offset < 2 ^ 41)
    (part : func = true → copySize offset remain ≠ SECTOR_SIZE) :
    sdcardTurn func offset pos remain t =
      if offset % SECTOR_SIZE + copySize offset remain ≤ SECTOR_SIZE then
        .ok { t with buf := overwrite t.buf pos (slice t.disk offset (copySize offset remain)) }
      else .error .outOfBounds := by
  have copied : copyOut t pos (sdcardReadSector t.disk (BitVec.ofNat 32 (offset / SECTOR_SIZE)))
      (offset % SECTOR_SIZE) (copySize offset remain) =
      if offset % SECTOR_SIZE + copySize offset remain ≤ SECTOR_SIZE then
        .ok { t with buf := overwrite t.buf pos (slice t.disk offset (copySize offset remain)) }
      else .error .outOfBounds := by
    rw [copyOut, slice_sector t.disk inside]
  simp only [sdcardTurn, copied]
  cases func with
  | false => rfl
  | true =>
    rw [if_pos rfl, if_pos (part rfl)]
    split
    · rw [bind_ok, write_sector_back]
    · rfl

theorem turn_writes (inside : offset < 2 ^ 41) (whole : copySize offset remain = SECTOR_SIZE) :
    sdcardTurn true offset pos remain t =
      .ok { t with
        disk := overwrite t.disk (offset - offset % SECTOR_SIZE) (slice t.buf pos SECTOR_SIZE) } := by
  have start : (BitVec.ofNat 32 (offset / SECTOR_SIZE)).toNat * SECTOR_SIZE =
      offset - offset % SECTOR_SIZE := by
    rw [BitVec.toNat_ofNat]
    simp only [SECTOR_SIZE]
    omega
  have moved : slice (fun k => t.buf (pos + k)) 0 SECTOR_SIZE = slice t.buf pos SECTOR_SIZE :=
    slice_eq_iff.mpr fun k _ => by rw [Nat.zero_add]
  rw [sdcardTurn, if_pos rfl, if_neg (not_not.mpr whole), sdcardWriteSector, start, moved]

/-- A read is right if its range is longer than a sector or lies in one. -/
theorem sdcard_read_loop (inside : offset + remain ≤ 2 ^ 41) (enough : remain ≤ turns)
    (fits : SECTOR_SIZE < remain ∨ offset % SECTOR_SIZE + remain ≤ SECTOR_SIZE) :
    sdcardLoop false turns offset pos remain t =
      .ok { t with buf := overwrite t.buf pos (slice t.disk offset remain) } := by
  induction turns generalizing offset pos remain t with
  | zero =>
    obtain rfl : remain = 0 := by omega
    rw [sdcard_loop_done, slice_zero, overwrite_nil]
  | succ turns ih =>
    by_cases none : remain = 0
    · subst none
      rw [sdcard_loop_done, slice_zero, overwrite_nil]
    · have bounded : copySize offset remain ≤ remain := by
        simp only [copySize] at fits ⊢
        split <;> omega
      have positive : 0 < copySize offset remain := by
        simp only [copySize, SECTOR_SIZE] at fits ⊢
        split <;> omega
      have within : offset % SECTOR_SIZE + copySize offset remain ≤ SECTOR_SIZE := by
        simp only [copySize, SECTOR_SIZE] at fits ⊢
        split <;> omega
      have later : SECTOR_SIZE < remain - copySize offset remain ∨
          (offset + copySize offset remain) % SECTOR_SIZE +
            (remain - copySize offset remain) ≤ SECTOR_SIZE := by
        simp only [copySize, SECTOR_SIZE] at fits ⊢
        split <;> omega
      rw [sdcard_loop_succ false none, turn_copies (by omega) (by simp), if_pos within, bind_ok,
        ih (by omega) (by omega) later]
      rw [overwrite_slices, Nat.add_sub_cancel' bounded]

/-- The bytes of whole sectors in a range that starts with a sector. -/
def wholeBytes (len : Nat) : Nat := len / SECTOR_SIZE * SECTOR_SIZE

/-- A write from the start of a sector writes the whole sectors, and copies what the card has in
place of the rest into the buffer. -/
theorem sdcard_write_loop (inside : offset + remain ≤ 2 ^ 41) (enough : remain ≤ turns)
    (aligned : offset % SECTOR_SIZE = 0) :
    sdcardLoop true turns offset pos remain t = .ok
      { disk := overwrite t.disk offset (slice t.buf pos (wholeBytes remain))
        buf := overwrite t.buf (pos + wholeBytes remain)
          (slice t.disk (offset + wholeBytes remain) (remain - wholeBytes remain)) } := by
  induction turns generalizing offset pos remain t with
  | zero =>
    obtain rfl : remain = 0 := by omega
    rw [sdcard_loop_done]
    simp [wholeBytes]
  | succ turns ih =>
    by_cases short : remain < SECTOR_SIZE
    · have noWhole : wholeBytes remain = 0 := by
        rw [wholeBytes, Nat.div_eq_of_lt short, Nat.zero_mul]
      have size : copySize offset remain = remain := if_neg (by omega)
      simp only [noWhole, slice_zero, overwrite_nil, Nat.add_zero, Nat.sub_zero]
      by_cases none : remain = 0
      · subst none
        rw [sdcard_loop_done, slice_zero, overwrite_nil]
      · have part : copySize offset remain ≠ SECTOR_SIZE := by omega
        rw [sdcard_loop_succ true none, turn_copies (by omega) (fun _ => part), size,
          if_pos (by omega), bind_ok, Nat.sub_self, sdcard_loop_done]
    · have sector : SECTOR_SIZE = 512 := rfl
      have size : copySize offset remain = SECTOR_SIZE := by
        simp only [copySize] at aligned short ⊢
        split <;> omega
      have whole : wholeBytes remain = SECTOR_SIZE + wholeBytes (remain - SECTOR_SIZE) := by
        simp only [wholeBytes, SECTOR_SIZE] at short ⊢
        omega
      have next : (offset + SECTOR_SIZE) % SECTOR_SIZE = 0 := by
        rw [Nat.add_mod_right, aligned]
      have untouched : slice (overwrite t.disk offset (slice t.buf pos SECTOR_SIZE))
          (offset + SECTOR_SIZE + wholeBytes (remain - SECTOR_SIZE))
          (remain - SECTOR_SIZE - wholeBytes (remain - SECTOR_SIZE)) =
          slice t.disk (offset + SECTOR_SIZE + wholeBytes (remain - SECTOR_SIZE))
            (remain - SECTOR_SIZE - wholeBytes (remain - SECTOR_SIZE)) :=
        slice_overwrite_apart (.inr (by rw [length_slice]; omega))
      rw [sdcard_loop_succ true (by omega), turn_writes (by omega) size, aligned, Nat.sub_zero,
        bind_ok, size, ih (by omega) (by omega) next, untouched, overwrite_slices]
      simp only [whole, Nat.add_assoc, Nat.sub_sub]

/-- The bytes of a range in front of the first start of a sector. -/
def headBytes (offset : Nat) : Nat := (SECTOR_SIZE - offset % SECTOR_SIZE) % SECTOR_SIZE

/-- When a write to the card is right: the card already holds the data of the sectors that are
covered in part. A write of 512 bytes is put at the start of its sector. -/
def CardHolds (t : Transfer) (offset len : Nat) : Prop :=
  if offset % SECTOR_SIZE = 0 ∨ SECTOR_SIZE < len then
    slice t.disk offset (headBytes offset) = slice t.buf 0 (headBytes offset) ∧
      let whole := headBytes offset + wholeBytes (len - headBytes offset)
      slice t.disk (offset + whole) (len - whole) = slice t.buf whole (len - whole)
  else if len = SECTOR_SIZE then
    overwrite t.disk (offset - offset % SECTOR_SIZE) (slice t.buf 0 len) =
      overwrite t.disk offset (slice t.buf 0 len)
  else offset % SECTOR_SIZE + len ≤ SECTOR_SIZE ∧ slice t.disk offset len = slice t.buf 0 len

/-- When `sdcard_disk_rw_lba` transfers its range. -/
def SdcardFits (kmalloc : Bool) (offset len : Nat) (func : Bool) (t : Transfer) : Prop :=
  kmalloc = true ∧
    if func then CardHolds t offset len
    else SECTOR_SIZE < len ∨ offset % SECTOR_SIZE + len ≤ SECTOR_SIZE

/-- A write from the start of a sector is right if the card has the rest already. -/
theorem aligned_write_iff (t : Transfer) (offset pos remain : Nat) :
    ({ disk := overwrite t.disk offset (slice t.buf pos (wholeBytes remain))
       buf := overwrite t.buf (pos + wholeBytes remain)
          (slice t.disk (offset + wholeBytes remain) (remain - wholeBytes remain)) } : Transfer) =
      { t with disk := overwrite t.disk offset (slice t.buf pos remain) } ↔
    slice t.disk (offset + wholeBytes remain) (remain - wholeBytes remain) =
      slice t.buf (pos + wholeBytes remain) (remain - wholeBytes remain) := by
  have bounded : wholeBytes remain ≤ remain := Nat.div_mul_le_self _ _
  constructor
  · intro same
    have kept := overwrite_eq_self_iff.mp (congrArg Transfer.buf same)
    rw [length_slice] at kept
    exact kept.symm
  · intro there
    have rest : overwrite (overwrite t.disk offset (slice t.buf pos (wholeBytes remain)))
        (offset + wholeBytes remain)
        (slice t.buf (pos + wholeBytes remain) (remain - wholeBytes remain)) =
        overwrite t.disk offset (slice t.buf pos (wholeBytes remain)) := by
      rw [overwrite_eq_self_iff, length_slice,
        slice_overwrite_apart (.inr (by rw [length_slice])), there]
    rw [overwrite_slices, Nat.add_sub_cancel' bounded] at rest
    rw [there, overwrite_slice, rest]

/-- A range of at most one sector's length takes one turn. -/
theorem sdcard_loop_single (func : Bool) (some : len ≠ 0) (short : len ≤ SECTOR_SIZE) :
    sdcardLoop func len offset pos len t = sdcardTurn func offset pos len t := by
  obtain ⟨turns, rfl⟩ := Nat.exists_eq_succ_of_ne_zero some
  have size : copySize offset turns.succ = turns.succ := if_neg (by omega)
  rw [sdcard_loop_succ func some, size, Nat.sub_self]
  cases sdcardTurn func offset pos turns.succ t with
  | error _ => rfl
  | ok _ => exact sdcard_loop_done func

theorem sdcard_read_iff (t : Transfer) (inside : offset + len ≤ 2 ^ 41) :
    sdcardLoop false len offset 0 len t = .ok (t.range false offset len) ↔
      SECTOR_SIZE < len ∨ offset % SECTOR_SIZE + len ≤ SECTOR_SIZE := by
  constructor
  · intro read
    by_contra crosses
    have size : copySize offset len = len := if_neg (by omega)
    have aligned : offset % SECTOR_SIZE < SECTOR_SIZE := Nat.mod_lt _ (by decide)
    rw [sdcard_loop_single false (by omega) (by omega), turn_copies (by omega) (by simp),
      if_neg (by omega)] at read
    cases read
  · exact sdcard_read_loop inside le_rfl

/-- A write from the start of a sector. -/
theorem write_aligned_iff (t : Transfer) (inside : offset + len ≤ 2 ^ 41)
    (aligned : offset % SECTOR_SIZE = 0) :
    sdcardLoop true len offset 0 len t = .ok (t.range true offset len) ↔ CardHolds t offset len := by
  have noHead : headBytes offset = 0 := by rw [headBytes, aligned, Nat.sub_zero, Nat.mod_self]
  rw [sdcard_write_loop inside le_rfl aligned, Except.ok.injEq, Transfer.range, if_pos rfl,
    aligned_write_iff, CardHolds, if_pos (.inl aligned), noHead]
  simp only [slice_zero, Nat.zero_add, Nat.sub_zero, true_and]

/-- A long write from inside a sector is right exactly if the card holds its parts of sectors. -/
theorem write_long_iff (t : Transfer) (inside : offset + len ≤ 2 ^ 41)
    (part : offset % SECTOR_SIZE ≠ 0) (long : SECTOR_SIZE < len) :
    sdcardLoop true len offset 0 len t = .ok (t.range true offset len) ↔ CardHolds t offset len := by
  have below : offset % SECTOR_SIZE < SECTOR_SIZE := Nat.mod_lt _ (by decide)
  have head : headBytes offset = SECTOR_SIZE - offset % SECTOR_SIZE := Nat.mod_eq_of_lt (by omega)
  have size : copySize offset len = headBytes offset := by rw [copySize, if_pos long, head]
  have next : (offset + headBytes offset) % SECTOR_SIZE = 0 := by
    simp only [head, SECTOR_SIZE]
    omega
  obtain ⟨turns, rfl⟩ : ∃ turns, len = turns + 1 := ⟨len - 1, by omega⟩
  rw [sdcard_loop_succ true (by omega), turn_copies (by omega) (fun _ => by omega), size,
    if_pos (by omega), bind_ok, sdcard_write_loop (by omega) (by omega) next, Except.ok.injEq,
    Transfer.range, if_pos rfl, CardHolds, if_pos (.inr long), Nat.zero_add]
  generalize headBytes offset = first at *
  generalize turns + 1 = len at *
  -- Once the card holds the bytes in front of the first boundary, the first turn does nothing.
  have joined : slice t.disk offset first = slice t.buf 0 first →
      overwrite t.disk (offset + first) (slice t.buf first (len - first)) =
        overwrite t.disk offset (slice t.buf 0 len) := by
    intro there
    have kept : overwrite t.disk offset (slice t.buf 0 first) = t.disk := by
      rw [← there, overwrite_slice]
    have both := overwrite_slices t.disk t.buf offset 0 first (len - first)
    rwa [kept, Nat.zero_add, Nat.add_sub_cancel' (by omega)] at both
  have idle : slice t.disk offset first = slice t.buf 0 first →
      overwrite t.buf 0 (slice t.disk offset first) = t.buf := by
    intro there
    rw [there, overwrite_slice]
  constructor
  · intro same
    have there : slice t.disk offset first = slice t.buf 0 first := by
      have start := congrArg (fun after => slice after.buf 0 first) same
      rw [slice_overwrite_apart (.inl (by omega))] at start
      have copied : slice (overwrite t.buf 0 (slice t.disk offset first)) 0
          (slice t.disk offset first).length = _ := slice_overwrite _
      rw [length_slice] at copied
      rw [← copied, start]
    refine ⟨there, ?_⟩
    rw [idle there, ← joined there, aligned_write_iff] at same
    simpa only [Nat.add_assoc, Nat.sub_sub] using same
  · rintro ⟨there, rest⟩
    rw [idle there, ← joined there, aligned_write_iff]
    simpa only [Nat.add_assoc, Nat.sub_sub] using rest

/-- A write of at most a sector that starts inside one. -/
theorem write_short_iff (t : Transfer) (inside : offset + len ≤ 2 ^ 41)
    (part : offset % SECTOR_SIZE ≠ 0) (short : len ≤ SECTOR_SIZE) :
    sdcardLoop true len offset 0 len t = .ok (t.range true offset len) ↔ CardHolds t offset len := by
  have size : copySize offset len = len := if_neg (by omega)
  have below : offset % SECTOR_SIZE < SECTOR_SIZE := Nat.mod_lt _ (by decide)
  rw [CardHolds, if_neg (by omega), Transfer.range, if_pos rfl]
  by_cases none : len = 0
  · subst none
    rw [sdcard_loop_done, if_neg (by decide)]
    simp only [slice_zero, overwrite_nil, Nat.add_zero, below.le, and_self]
  rw [sdcard_loop_single true none short]
  by_cases whole : len = SECTOR_SIZE
  · rw [turn_writes (by omega) (size.trans whole), Except.ok.injEq, Transfer.mk.injEq, whole]
    exact and_iff_left rfl
  rw [if_neg whole, turn_copies (by omega) (fun _ => by omega), size]
  by_cases crosses : offset % SECTOR_SIZE + len ≤ SECTOR_SIZE
  · rw [if_pos crosses, Except.ok.injEq, Transfer.mk.injEq, overwrite_eq_self_iff, length_slice]
    constructor
    · exact fun same => ⟨crosses, same.2.symm⟩
    · rintro ⟨-, there⟩
      exact ⟨by rw [← there, overwrite_slice], there.symm⟩
  · rw [if_neg crosses]
    simp only [reduceCtorEq, crosses, false_and]

/-- `sdcard_disk_rw_lba` moves its range of the card, of at most `2 ^ 32` sectors, exactly if the
buffer of a sector is supplied and, for a read, the range is longer than a sector or lies in one,
for a write, the card already holds the data of the sectors that are covered in part. -/
theorem sdcard_range_iff (kmalloc : Bool) (offset len : Nat) (func : Bool) (t : Transfer)
    (inside : offset + len ≤ 2 ^ 41) :
    sdcardDiskRwLba kmalloc offset len func t = .ok (t.range func offset len) ↔
      SdcardFits kmalloc offset len func t := by
  rw [sdcardDiskRwLba, SdcardFits]
  cases kmalloc with
  | false => simp
  | true =>
    rw [if_pos rfl]
    cases func with
    | false => simpa only [true_and, Bool.false_eq_true, if_false] using sdcard_read_iff t inside
    | true =>
      simp only [true_and, if_true]
      by_cases aligned : offset % SECTOR_SIZE = 0
      · exact write_aligned_iff t inside aligned
      · by_cases long : SECTOR_SIZE < len
        · exact write_long_iff t inside aligned long
        · exact write_short_iff t inside aligned (by omega)

/-- Two whole sectors are written to a card of zeros. -/
theorem sectors_written :
    let t : Transfer := ⟨fun _ => 0, fun _ => 1⟩
    sdcardDiskRwLba true 512 1024 true t = .ok (t.range true 512 1024) := by
  refine (sdcard_range_iff true 512 1024 true ⟨fun _ => 0, fun _ => 1⟩ (by decide)).mpr ⟨rfl, ?_⟩
  rw [if_pos rfl, CardHolds, if_pos (.inl rfl)]
  exact ⟨rfl, rfl⟩

/-- A byte that is written to the start of a card is not stored. -/
theorem byte_lost :
    let t : Transfer := ⟨fun _ => 0, fun _ => 1⟩
    sdcardDiskRwLba true 0 1 true t ≠ .ok (t.range true 0 1) := by
  intro t written
  obtain ⟨-, held⟩ := (write_aligned_iff t (by decide) rfl).mp written
  exact absurd held (by decide)

end SdCard

/-! ## The virtio disk -/

section VirtioDisk

/-- `virtio_disk_rw` of sectors and the buffer of the kernel. The device refuses sectors behind
the end of the disk, and the interrupt handler ends the kernel. -/
def virtioDiskRw (sectors sector : Nat) (kbuf : Transfer) (count : Nat) (func : Bool) :
    Except Fault Transfer :=
  if sector + count ≤ sectors then
    .ok (kbuf.range func (sector * SECTOR_SIZE) (count * SECTOR_SIZE))
  else kpanic "Virtio disk status non-zero."

variable (sectors : Nat) (kmalloc : Nat → Bool) (offset len : Nat)

/-- `ROUNDUP_WITH` of an unsigned number. -/
def roundUpWord (s a : Nat) : Nat := roundUpWith s a % 2 ^ 64

/-- The size of the buffer of `virtio_disk_read` and `virtio_disk_write`. -/
def rawSize : Nat :=
  if (len + offset % SECTOR_SIZE) % 2 ^ 64 < PG_SIZE then
    roundUpWord SECTOR_SIZE (len + offset % SECTOR_SIZE)
  else roundUpWord PG_SIZE (len + offset % SECTOR_SIZE)

/-- The start of the routines: a buffer of zeros with room for the sectors around the range.
`kmalloc` says which sizes are supplied. -/
def zeroedBuffer (t : Transfer) : Except Fault Transfer :=
  if kmalloc (rawSize offset len) then .ok { t with buf := fun _ => 0 }
  else .error .nullPointer

/-- A `memcpy` of the range must stay in the buffer. -/
def insideBuffer : Except Fault Unit :=
  if offset % SECTOR_SIZE + len ≤ rawSize offset len then .ok () else .error .outOfBounds

/-- `virtio_disk_rw_lba`. -/
def virtioDiskRwLba (func : Bool) (t : Transfer) : Except Fault Transfer :=
  zeroedBuffer kmalloc offset len t >>= fun kbuf =>
    virtioDiskRw sectors (offset / SECTOR_SIZE) kbuf (rawSize offset len / SECTOR_SIZE)
      func >>= fun kbuf =>
    insideBuffer offset len >>= fun _ =>
      .ok ⟨kbuf.disk, overwrite t.buf 0 (slice kbuf.buf (offset % SECTOR_SIZE) len)⟩

/-- `virtio_disk_read`. -/
def virtioDiskRead (t : Transfer) : Except Fault Transfer :=
  zeroedBuffer kmalloc offset len t >>= fun kbuf =>
    virtioDiskRw sectors (offset / SECTOR_SIZE) kbuf (rawSize offset len / SECTOR_SIZE)
      false >>= fun kbuf =>
    insideBuffer offset len >>= fun _ =>
      .ok ⟨kbuf.disk, overwrite t.buf 0 (slice kbuf.buf (offset % SECTOR_SIZE) len)⟩

/-- `virtio_disk_write`. -/
def virtioDiskWrite (t : Transfer) : Except Fault Transfer :=
  zeroedBuffer kmalloc offset len t >>= fun kbuf =>
    virtioDiskRw sectors (offset / SECTOR_SIZE) kbuf (rawSize offset len / SECTOR_SIZE)
      false >>= fun kbuf =>
    insideBuffer offset len >>= fun _ =>
    virtioDiskRw sectors (offset / SECTOR_SIZE)
      { kbuf with buf := overwrite kbuf.buf (offset % SECTOR_SIZE) (slice t.buf 0 len) }
      (rawSize offset len / SECTOR_SIZE) true >>= fun kbuf =>
      .ok { t with disk := kbuf.disk }

/-- The ways to a range of the virtio disk. -/
inductive VirtioAccess where
  | rwLba (func : Bool)
  | read
  | write

/-- Whether an access writes. -/
def VirtioAccess.writes : VirtioAccess → Bool
  | .rwLba func => func
  | .read => false
  | .write => true

/-- An access to a range. -/
def VirtioAccess.run (sectors : Nat) (kmalloc : Nat → Bool) (offset len : Nat) (t : Transfer) :
    VirtioAccess → Except Fault Transfer
  | .rwLba func => virtioDiskRwLba sectors kmalloc offset len func t
  | .read => virtioDiskRead sectors kmalloc offset len t
  | .write => virtioDiskWrite sectors kmalloc offset len t

/-- The bytes of the sectors that are moved for a range: below a page they are those of the range,
from a page on they are rounded up to whole pages. -/
def spanSize : Nat :=
  if offset % SECTOR_SIZE + len < PG_SIZE then roundUpWith SECTOR_SIZE (offset % SECTOR_SIZE + len)
  else roundUpWith PG_SIZE (offset % SECTOR_SIZE + len)

/-- The sectors of a range can be moved: there is a buffer for them, and they are on the disk. -/
def SpanServed : Prop :=
  spanSize offset len < 2 ^ 64 ∧ kmalloc (spanSize offset len) = true ∧
    offset / SECTOR_SIZE * SECTOR_SIZE + spanSize offset len ≤ sectors * SECTOR_SIZE

/-- The data is zero, and so is the rest of the sectors that are moved. -/
def SpanZero (t : Transfer) : Prop :=
  (∀ k < len, t.buf k = 0) ∧
    ∀ k, offset / SECTOR_SIZE * SECTOR_SIZE ≤ k →
      k < offset / SECTOR_SIZE * SECTOR_SIZE + spanSize offset len →
      k < offset ∨ offset + len ≤ k → t.disk k = 0

/-- When an access transfers its range. -/
def VirtioFits (t : Transfer) : VirtioAccess → Prop
  | .rwLba true => SpanServed sectors kmalloc offset len ∧ SpanZero offset len t
  | _ => SpanServed sectors kmalloc offset len

variable {sectors kmalloc offset len} {t : Transfer}

/-- The size of the buffer is that of the sectors, or it is rounded up past the largest word and
leaves no room for the range. -/
theorem raw_size_eq (word : spanSize offset len < 2 ^ 64) :
    rawSize offset len = spanSize offset len := by
  have less : offset % SECTOR_SIZE + len < 2 ^ 64 := by
    simp only [spanSize, roundUpWith, PG_SIZE] at word ⊢
    split at word <;> omega
  rw [rawSize, Nat.add_comm len, Nat.mod_eq_of_lt less]
  rw [spanSize] at word ⊢
  split
  all_goals
    rename_i size
    simp only [size, if_true, if_false] at word
    rw [roundUpWord, Nat.mod_eq_of_lt word]

theorem raw_size_wraps (wraps : 2 ^ 64 ≤ spanSize offset len) :
    rawSize offset len < offset % SECTOR_SIZE + len := by
  rw [rawSize]
  simp only [spanSize, roundUpWord, roundUpWith, SECTOR_SIZE, PG_SIZE] at *
  split at wraps <;> split <;> omega

theorem extent_le_span (offset len : Nat) :
    offset % SECTOR_SIZE + len ≤ spanSize offset len := by
  simp only [spanSize, roundUpWith, SECTOR_SIZE, PG_SIZE]
  split <;> omega

theorem span_sectors (offset len : Nat) :
    spanSize offset len / SECTOR_SIZE * SECTOR_SIZE = spanSize offset len := by
  simp only [spanSize, roundUpWith, SECTOR_SIZE, PG_SIZE]
  split <;> omega

/-- When the routines get to the end. -/
theorem span_served_iff :
    SpanServed sectors kmalloc offset len ↔
      kmalloc (rawSize offset len) = true ∧
      offset / SECTOR_SIZE + rawSize offset len / SECTOR_SIZE ≤ sectors ∧
      offset % SECTOR_SIZE + len ≤ rawSize offset len := by
  by_cases word : spanSize offset len < 2 ^ 64
  · have sectorsOf := span_sectors offset len
    have fits : offset / SECTOR_SIZE + spanSize offset len / SECTOR_SIZE ≤ sectors ↔
        offset / SECTOR_SIZE * SECTOR_SIZE + spanSize offset len ≤ sectors * SECTOR_SIZE := by
      simp only [SECTOR_SIZE] at sectorsOf ⊢
      omega
    rw [raw_size_eq word, fits]
    exact ⟨fun served => ⟨served.2.1, served.2.2, extent_le_span offset len⟩,
      fun served => ⟨word, served.1, served.2.1⟩⟩
  · have tight : rawSize offset len < offset % SECTOR_SIZE + len :=
      raw_size_wraps (by omega)
    exact ⟨fun served => absurd served.1 word, fun served => absurd served.2.2 (by omega)⟩

/-- The place of the range in the sectors. -/
theorem sector_start (offset : Nat) :
    offset / SECTOR_SIZE * SECTOR_SIZE + offset % SECTOR_SIZE = offset :=
  Nat.div_add_mod' _ _

section

variable (served : SpanServed sectors kmalloc offset len)
include served

theorem zeroed_buffer_served :
    zeroedBuffer kmalloc offset len t = .ok { t with buf := fun _ => 0 } :=
  if_pos (span_served_iff.mp served).1

theorem virtio_rw_served (kbuf : Transfer) (func : Bool) :
    virtioDiskRw sectors (offset / SECTOR_SIZE) kbuf (rawSize offset len / SECTOR_SIZE)
      func = .ok (kbuf.range func (offset / SECTOR_SIZE * SECTOR_SIZE) (spanSize offset len)) := by
  rw [virtioDiskRw, if_pos (span_served_iff.mp served).2.1, raw_size_eq served.1, span_sectors]

theorem inside_buffer_served : insideBuffer offset len = .ok () :=
  if_pos (span_served_iff.mp served).2.2

theorem rw_lba_served (func : Bool) :
    virtioDiskRwLba sectors kmalloc offset len func t =
      let kbuf := (Transfer.mk t.disk fun _ => 0).range func (offset / SECTOR_SIZE * SECTOR_SIZE)
        (spanSize offset len)
      .ok ⟨kbuf.disk, overwrite t.buf 0 (slice kbuf.buf (offset % SECTOR_SIZE) len)⟩ := by
  simp only [virtioDiskRwLba, zeroed_buffer_served served, virtio_rw_served served,
    inside_buffer_served served, bind_ok]

/-- A transfer through the buffer that reads. -/
theorem rw_lba_reads :
    virtioDiskRwLba sectors kmalloc offset len false t = .ok (t.range false offset len) := by
  have part : slice (overwrite (fun _ => 0) 0 (slice t.disk (offset / SECTOR_SIZE * SECTOR_SIZE)
      (spanSize offset len))) (offset % SECTOR_SIZE) len = slice t.disk offset len := by
    rw [slice_overwrite_within (Nat.zero_le _) (by rw [Nat.zero_add]; exact extent_le_span _ _),
      Nat.sub_zero, sector_start]
  rw [rw_lba_served served]
  simp only [Transfer.range, Bool.false_eq_true, if_false, part]

/-- The read, modify and write of `virtio_disk_write`. -/
theorem write_writes :
    virtioDiskWrite sectors kmalloc offset len t = .ok (t.range true offset len) := by
  have inside : offset % SECTOR_SIZE + (slice t.buf 0 len).length ≤ spanSize offset len := by
    rw [length_slice]
    exact extent_le_span offset len
  have around : slice (overwrite (fun _ => 0) 0 (slice t.disk (offset / SECTOR_SIZE * SECTOR_SIZE)
      (spanSize offset len))) 0 (spanSize offset len) =
      slice t.disk (offset / SECTOR_SIZE * SECTOR_SIZE) (spanSize offset len) := by
    rw [slice_overwrite_within le_rfl le_rfl, Nat.add_zero]
  simp only [virtioDiskWrite, zeroed_buffer_served served, virtio_rw_served served,
    inside_buffer_served served, bind_ok, Transfer.range, Bool.false_eq_true, if_true, if_false]
  rw [overwrite_window _ _ inside, around, overwrite_slice, sector_start]

theorem rw_lba_writes_iff :
    virtioDiskRwLba sectors kmalloc offset len true t = .ok (t.range true offset len) ↔
      SpanZero offset len t := by
  have extent := extent_le_span offset len
  have start := sector_start offset
  rw [rw_lba_served served, Except.ok.injEq]
  simp only [Transfer.range, if_true, Transfer.mk.injEq]
  constructor
  · rintro ⟨disk, buf⟩
    have zero : ∀ k < len, t.buf k = 0 := by
      intro k less
      rw [← buf, overwrite_slice_inside (Nat.zero_le k) (by omega)]
    refine ⟨zero, fun k behind before outside => ?_⟩
    have kept := congrFun disk k
    rw [overwrite_slice_inside behind before,
      overwrite_outside (by rw [length_slice]; omega)] at kept
    exact kept.symm
  · rintro ⟨data, rest⟩
    constructor
    · funext k
      by_cases inside : offset ≤ k ∧ k < offset + len
      · rw [overwrite_slice_inside (by omega) (by omega),
          overwrite_slice_inside inside.1 inside.2, data _ (by omega)]
      · have kept : overwrite t.disk offset (slice t.buf 0 len) k = t.disk k :=
          overwrite_outside (by rw [length_slice]; omega)
        rw [kept]
        by_cases within : offset / SECTOR_SIZE * SECTOR_SIZE ≤ k ∧
            k < offset / SECTOR_SIZE * SECTOR_SIZE + spanSize offset len
        · rw [overwrite_slice_inside within.1 within.2, rest k within.1 within.2 (by omega)]
        · rw [overwrite_outside (by rw [length_slice]; omega)]
    · refine overwrite_eq_self_iff.mpr ?_
      rw [length_slice]
      exact slice_eq_iff.mpr fun k less => by rw [Nat.zero_add, data k less]

end

theorem served_of_stages {kbuf moved : Transfer} {func : Bool} {passed : Unit}
    (zeroed : zeroedBuffer kmalloc offset len t = .ok kbuf)
    (rw : virtioDiskRw sectors (offset / SECTOR_SIZE) kbuf
      (rawSize offset len / SECTOR_SIZE) func = .ok moved)
    (inside : insideBuffer offset len = .ok passed) :
    SpanServed sectors kmalloc offset len := by
  refine span_served_iff.mpr ⟨?_, ?_, ?_⟩
  · by_contra missing
    rw [zeroedBuffer, if_neg missing] at zeroed
    cases zeroed
  · by_contra behind
    rw [virtioDiskRw, if_neg behind] at rw
    cases rw
  · by_contra overrun
    rw [insideBuffer, if_neg overrun] at inside
    cases inside

/-- An access that cannot move its sectors does not return. -/
theorem served_of_run {access : VirtioAccess} {after : Transfer}
    (ran : access.run sectors kmalloc offset len t = .ok after) :
    SpanServed sectors kmalloc offset len := by
  cases access with
  | rwLba _ | read | write =>
    obtain ⟨_, zeroed, ran⟩ := bind_eq_ok.mp ran
    obtain ⟨_, moved, ran⟩ := bind_eq_ok.mp ran
    obtain ⟨_, inside, _⟩ := bind_eq_ok.mp ran
    exact served_of_stages zeroed moved inside

/-- An access transfers its range of the virtio disk exactly if its sectors, rounded up to pages
from a page on, can be buffered and are on the disk, and for a write of `virtio_disk_rw_lba` the
data and the rest of the sectors are zero. -/
theorem virtio_range_iff (sectors : Nat) (kmalloc : Nat → Bool) (offset len : Nat) (t : Transfer)
    (access : VirtioAccess) :
    access.run sectors kmalloc offset len t = .ok (t.range access.writes offset len) ↔
      VirtioFits sectors kmalloc offset len t access := by
  by_cases served : SpanServed sectors kmalloc offset len
  · match access with
    | .rwLba false => exact iff_of_true (rw_lba_reads served) served
    | .rwLba true => exact (rw_lba_writes_iff served).trans (and_iff_right served).symm
    | .read => exact iff_of_true (rw_lba_reads served) served
    | .write => exact iff_of_true (write_writes served) served
  · refine iff_of_false (fun ran => served (served_of_run ran)) ?_
    match access with
    | .rwLba true => exact fun fits => served fits.1
    | .rwLba false | .read | .write => exact served

/-- A byte that the block cache flushes to a disk of zeros is lost, and so is the byte of the
cache. -/
theorem flush_writes_zero :
    let t : Transfer := ⟨fun _ => 0, fun _ => 1⟩
    (VirtioAccess.rwLba true).run 8 (fun _ => true) 0 512 t ≠ .ok (t.range true 0 512) := by
  intro t written
  have served : SpanServed 8 (fun _ => true) 0 512 := ⟨by decide, rfl, by decide⟩
  exact absurd (((rw_lba_writes_iff served).mp written).1 0 (by decide)) (by decide)

end VirtioDisk

end Mftt.RawDisk
