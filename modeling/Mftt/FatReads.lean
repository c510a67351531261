import Mathlib.Data.List.GetD
import Mathlib.Data.Nat.ModEq
import Mftt.BufferedReads
import Mftt.FatFiles

/-!
# What reading a file returns

First the shape of a read, on any file: `read` copies as many bytes as its clamped
length says, and it ends exactly when the walk to the cluster of the offset ends.
The walk counts positions modulo `2 ^ 32`, so it ends exactly for offsets below the
last cluster of that range.

Then its content. The whole sectors and the tail come from where the file has them.
The part before the first whole sector comes from the first sector of its cluster,
which is the right one only for an offset in that sector.
-/

namespace Mftt.Fat

open Slices FileSystem

theorem slice_shift {disk : Nat → UInt8} {addr start count : Nat} :
    slice (fun k => disk (addr + k)) start count = slice disk (addr + start) count := by
  simp only [slice, Nat.add_assoc]

/-- The sector that the file system reads is the one that the block cache gives: where the cache
shows the bytes of the disk, its `bio_cache_read` fails in the same way or returns a buffer with
the same bytes. -/
theorem sector_of_cache {kmalloc : BioCache → Option Nat} {cache : BioCache} {dev addr : Nat}
    {content disk : Nat → UInt8} (fresh : Fresh kmalloc) (supplies : Supplies kmalloc)
    (coherent : Coherent dev content disk none cache) (room : cache.Spares dev addr) :
    match bioCacheRead disk addr with
    | .error fault => Mftt.bioCacheRead kmalloc cache dev addr = .error fault
    | .ok data => ∃ cache' b buf, Mftt.bioCacheRead kmalloc cache dev addr = .ok (cache', b) ∧
        Coherent dev content disk (some b) cache' ∧ cache'.buffer b = some buf ∧
        ∀ k < BUFFER_SIZE, buf.data k = data k := by
  by_cases whole : addr % BUFFER_SIZE = 0
  · obtain ⟨cache', b, buf, reads, got, valid⟩ :=
      bio_cache_read_returns fresh supplies coherent whole room
    rw [bioCacheRead, assert_true _ whole, bind_ok]
    refine ⟨cache', b, buf, reads, got.coherent, got.present, fun k inside => ?_⟩
    rw [got.coherent.shown b buf got.present got.ofDev valid k inside, got.ofAddr]
  · rw [bioCacheRead, Mftt.bioCacheRead, assert, if_neg whole]
    rfl

variable {offset turns : Nat} {copied : List UInt8}

variable {c : Cursor} {len k : Nat} {result : Int}

namespace FileSystem

/-! ## Routines on one sector -/

variable {fs : FileSystem} {disk : Nat → UInt8}

section Sector

variable (sectorSize : fs.bytesPerSec = 512)
include sectorSize

theorem bio_cache_read_sector (n : Nat) :
    bioCacheRead disk (n * fs.bytesPerSec) = .ok fun k => disk (n * 512 + k) := by
  have aligned : n * 512 % BUFFER_SIZE = 0 := Nat.mul_mod_left n 512
  rw [bioCacheRead, sectorSize, assert_true _ aligned, bind_ok]

theorem copy_sector_eq (inside : len ≤ 512) :
    fs.copySector disk c len =
      .ok (slice disk ((fs.clus2Sector c.clus + c.pClus / 512) % 2 ^ 32 * 512) len) := by
  have fits : 0 + len ≤ 512 := by omega
  rw [copySector, bio_cache_read_sector sectorSize, bind_ok, copyData, if_pos fits, slice_shift,
    Nat.add_zero]

variable (disk) in
theorem get_next_returns (clus : Nat) : ∃ next, fs.getNextClusInFat disk clus = .ok next := by
  rw [getNextClusInFat, bio_cache_read_sector sectorSize]
  exact ⟨_, rfl⟩

/-- The entry of a cluster in the first table. -/
theorem get_next_entry {clus : Nat} (word : fs.fatStartSct + clus / 128 < 2 ^ 32) :
    fs.getNextClusInFat disk clus = .ok (ByteMemory.load (fun x => (disk x).toBitVec)
      (fs.fatStartSct * 512 + 4 * clus) 4 % 2 ^ 28) := by
  have address : (fs.fatStartSct + clus / 128) * 512 + 4 * (clus - 128 * (clus / 128)) =
      fs.fatStartSct * 512 + 4 * clus := by omega
  rw [getNextClusInFat, bio_cache_read_sector sectorSize, bind_ok, Nat.mod_eq_of_lt word,
    ByteMemory.load_shift (fun x => (disk x).toBitVec), address]

theorem copy_head_eq (c : Cursor) (unaligned : c.pClus % 512 ≠ 0) :
    fs.copyHead disk c = .ok ⟨c.clus, c.pClus + min (512 - c.pClus % 512) c.rSize,
      c.rSize - min (512 - c.pClus % 512) c.rSize,
      c.copied ++ slice disk (fs.clus2Sector c.clus * 512 + c.pClus % 512)
        (min (512 - c.pClus % 512) c.rSize)⟩ := by
  have fits : c.pClus % 512 + min (512 - c.pClus % 512) c.rSize ≤ 512 := by omega
  rw [copyHead, if_neg unaligned, bio_cache_read_sector sectorSize]
  rw [bind_ok, copyData, if_pos fits, bind_ok, slice_shift]

end Sector

/-! ## The walk along the chain -/

/-- A walk that starts on a position that divides the range never leaves the positions. If it
ends, the offset is below the last of them. -/
theorem walk_ends {clus found : Nat} (divides : fs.bytesPerClus ∣ 2 ^ 32)
    (position : k * fs.bytesPerClus < 2 ^ 32)
    (ends : fs.walk disk offset turns (k * fs.bytesPerClus) clus = .ok found) :
    offset < 2 ^ 32 - fs.bytesPerClus := by
  obtain ⟨n, range⟩ := divides
  -- A position below the range leaves room for one more cluster.
  have last : ∀ k, k * fs.bytesPerClus < 2 ^ 32 →
      k * fs.bytesPerClus + fs.bytesPerClus ≤ 2 ^ 32 := by
    intro k below
    rw [range, Nat.mul_comm fs.bytesPerClus n] at below ⊢
    have step : k + 1 ≤ n := Nat.lt_of_mul_lt_mul_right below
    have scaled := Nat.mul_le_mul_right fs.bytesPerClus step
    rwa [Nat.add_mul, Nat.one_mul] at scaled
  induction turns generalizing k clus with
  | zero => simp [walk] at ends
  | succ turns ih =>
    have room := last k position
    rw [walk] at ends
    split at ends
    · obtain ⟨next, _, ends⟩ := bind_eq_ok.mp ends
      by_cases wraps : k * fs.bytesPerClus + fs.bytesPerClus = 2 ^ 32
      · rw [wraps, Nat.mod_self, ← Nat.zero_mul fs.bytesPerClus] at ends
        exact ih (by omega) ends
      · have stays : k * fs.bytesPerClus + fs.bytesPerClus < 2 ^ 32 := by omega
        rw [Nat.mod_eq_of_lt stays, ← Nat.succ_mul] at ends
        exact ih (by rwa [Nat.succ_mul]) ends
    · omega

variable (disk) in
/-- Below the last cluster of the range the walk ends, after one table entry for each cluster it
passes. -/
theorem walk_returns (clus : Nat) (sectorSize : fs.bytesPerSec = 512)
    (below : offset < 2 ^ 32 - fs.bytesPerClus)
    (enough : offset < (k + turns - 1) * fs.bytesPerClus) (some : 0 < turns) :
    ∃ found, fs.walk disk offset turns (k * fs.bytesPerClus) clus = .ok found := by
  induction turns generalizing k clus with
  | zero => omega
  | succ turns ih =>
    rw [walk]
    split
    · obtain ⟨next, links⟩ := get_next_returns disk sectorSize clus
      have stays : k * fs.bytesPerClus + fs.bytesPerClus < 2 ^ 32 := by omega
      rw [links, Nat.mod_eq_of_lt stays, ← Nat.succ_mul]
      have later : 0 < turns := by
        rcases Nat.eq_zero_or_pos turns with rfl | later
        · simp at enough
          omega
        · exact later
      refine ih next ?_ later
      have shift : k + (turns + 1) - 1 = k + 1 + turns - 1 := by omega
      rwa [shift] at enough
    · exact ⟨clus, rfl⟩

/-! ## The shape of a read -/

section Shape

variable (sectorSize : fs.bytesPerSec = 512) (whole : fs.bytesPerClus % 512 = 0)

include sectorSize

theorem copy_sectors_count {c' : Cursor} (copies : fs.copySectors disk turns c = .ok c') :
    c'.rSize ≤ 512 ∧ c'.copied.length + c'.rSize = c.copied.length + c.rSize := by
  induction turns generalizing c with
  | zero => simp [copySectors] at copies
  | succ turns ih =>
    rw [copySectors] at copies
    split at copies
    · rw [copy_sector_eq sectorSize (Nat.le_refl 512), bind_ok] at copies
      obtain ⟨⟨clus, pClus⟩, _, copies⟩ := bind_eq_ok.mp copies
      obtain ⟨small, count⟩ := ih copies
      rw [count, List.length_append, length_slice]
      dsimp only
      omega
    · cases copies
      exact ⟨by omega, rfl⟩

variable (disk) in
theorem copy_sectors_returns (c : Cursor) (enough : c.rSize ≤ 512 * turns) (some : 0 < turns) :
    ∃ c', fs.copySectors disk turns c = .ok c' := by
  induction turns generalizing c with
  | zero => omega
  | succ turns ih =>
    rw [copySectors]
    split
    · have moves : ∃ next, fs.advance disk c.clus c.pClus = .ok next := by
        rw [advance]
        split
        · obtain ⟨next, links⟩ := get_next_returns disk sectorSize c.clus
          exact ⟨_, by rw [links, bind_ok]⟩
        · exact ⟨_, rfl⟩
      obtain ⟨next, moves⟩ := moves
      rw [copy_sector_eq sectorSize (Nat.le_refl 512), moves]
      apply ih
      · dsimp only
        omega
      · omega
    · exact ⟨c, rfl⟩

theorem copy_tail_count (small : c.rSize ≤ 512) (copies : fs.copyTail disk c = .ok copied) :
    copied.length = c.copied.length + c.rSize := by
  rw [copyTail] at copies
  split at copies
  · cases copies
    omega
  · rw [copy_sector_eq sectorSize small] at copies
    cases copies
    simp

include whole

variable (disk) in
/-- After the bytes up to the next sector either nothing is left or the cursor is on a sector, at
most at the end of its cluster. -/
theorem copy_head_count (c : Cursor) (inside : c.pClus < fs.bytesPerClus) :
    ∃ c', fs.copyHead disk c = .ok c' ∧ c'.pClus ≤ fs.bytesPerClus ∧
      c'.copied.length + c'.rSize = c.copied.length + c.rSize := by
  by_cases aligned : c.pClus % 512 = 0
  · refine ⟨c, ?_, Nat.le_of_lt inside, rfl⟩
    rw [copyHead, if_pos aligned]
  · refine ⟨_, copy_head_eq sectorSize c aligned, ?_, ?_⟩
    · dsimp only
      omega
    · dsimp only
      rw [List.length_append, length_slice]
      omega

/-- A read that returns has copied the clamped length. -/
theorem read_count {start size : Nat} (positive : 0 < fs.bytesPerClus)
    (reads : fs.read disk turns start size offset len = .ok (result, copied)) :
    result = toInt (clamp size offset len) ∧ copied.length = clamp size offset len := by
  obtain ⟨clus, _, reads⟩ := bind_eq_ok.mp reads
  obtain ⟨c, head, -, count⟩ := copy_head_count disk sectorSize whole
    ⟨clus, offset % fs.bytesPerClus, clamp size offset len, []⟩ (Nat.mod_lt _ positive)
  rw [head, bind_ok] at reads
  dsimp only [List.length_nil] at count
  split at reads
  · obtain ⟨rfl, rfl⟩ := Prod.mk.inj (Except.ok.inj reads)
    exact ⟨rfl, by omega⟩
  · obtain ⟨c₁, enters, reads⟩ := bind_eq_ok.mp reads
    obtain ⟨c₂, copies, reads⟩ := bind_eq_ok.mp reads
    obtain ⟨bytes, tail, reads⟩ := bind_eq_ok.mp reads
    obtain ⟨rfl, rfl⟩ := Prod.mk.inj (Except.ok.inj reads)
    obtain ⟨small, sectors⟩ := copy_sectors_count sectorSize copies
    have kept : c₁.copied = c.copied ∧ c₁.rSize = c.rSize := by
      rw [nextCluster] at enters
      split at enters
      · obtain ⟨next, _, enters⟩ := bind_eq_ok.mp enters
        cases enters
        exact ⟨rfl, rfl⟩
      · split at enters
        · contradiction
        · cases enters
          exact ⟨rfl, rfl⟩
    refine ⟨rfl, ?_⟩
    rw [copy_tail_count sectorSize small tail, sectors, kept.1]
    omega

theorem read_returns_of_walk {start size clus : Nat} (positive : 0 < fs.bytesPerClus)
    (walks : fs.walk disk offset turns fs.bytesPerClus start = .ok clus)
    (enough : clamp size offset len ≤ 512 * turns) :
    ∃ result copied, fs.read disk turns start size offset len = .ok (result, copied) := by
  obtain ⟨c, head, bound, count⟩ := copy_head_count disk sectorSize whole
    ⟨clus, offset % fs.bytesPerClus, clamp size offset len, []⟩ (Nat.mod_lt _ positive)
  dsimp only [List.length_nil] at count
  rw [FileSystem.read, walks, bind_ok, head, bind_ok]
  by_cases none : c.rSize = 0
  · rw [if_pos none]
    exact ⟨_, _, rfl⟩
  · rw [if_neg none]
    have enters : ∃ c₁, fs.nextCluster disk c = .ok c₁ ∧ c₁.rSize = c.rSize := by
      rw [nextCluster]
      split
      · obtain ⟨next, links⟩ := get_next_returns disk sectorSize c.clus
        rw [links]
        exact ⟨_, rfl, rfl⟩
      · rw [if_neg (by omega)]
        exact ⟨c, rfl, rfl⟩
    obtain ⟨c₁, enters, left⟩ := enters
    have room : c₁.rSize ≤ 512 * turns := by omega
    obtain ⟨c₂, copies⟩ := copy_sectors_returns disk sectorSize c₁ room (by omega)
    obtain ⟨small, -⟩ := copy_sectors_count sectorSize copies
    rw [enters, bind_ok, copies, bind_ok, copyTail]
    by_cases finished : c₂.rSize = 0
    · rw [if_pos finished]
      exact ⟨_, _, rfl⟩
    · rw [if_neg finished, copy_sector_eq sectorSize small]
      exact ⟨_, _, rfl⟩

/-- Below the last cluster of the 32-bit range a read returns. -/
theorem read_returns (start size offset len : Nat) (positive : 0 < fs.bytesPerClus)
    (below : offset < 2 ^ 32 - fs.bytesPerClus) :
    ∃ turns result copied, fs.read disk turns start size offset len = .ok (result, copied) := by
  have enough : offset < (1 + (offset + clamp size offset len + 1) - 1) * fs.bytesPerClus := by
    have scaled := Nat.mul_le_mul_left (offset + clamp size offset len + 1) positive
    rw [Nat.add_sub_cancel_left]
    omega
  obtain ⟨clus, walks⟩ := walk_returns disk start sectorSize below enough (Nat.succ_pos _)
  rw [Nat.one_mul] at walks
  exact ⟨_, read_returns_of_walk sectorSize whole positive walks (by omega)⟩

end Shape

end FileSystem

/-! ## Reads within the file -/

section Volumes

variable (v : Volume)

theorem cluster_size_pow : v.clusterSize = 2 ^ (9 + v.exponent) := by
  rw [Volume.clusterSize, Nat.pow_add]

theorem cluster_size_pos : 0 < v.clusterSize := by
  rw [cluster_size_pow]
  exact Nat.two_pow_pos _

theorem cluster_size_dvd : v.clusterSize ∣ 2 ^ 32 := by
  rw [cluster_size_pow]
  have small := v.exponent_le
  exact Nat.pow_dvd_pow 2 (by omega)

theorem cluster_size_whole : v.clusterSize % 512 = 0 := Nat.mul_mod_right 512 _

theorem cluster_size_le : v.clusterSize ≤ 2 ^ 16 := by
  rw [cluster_size_pow]
  have small := v.exponent_le
  exact Nat.pow_le_pow_right (by omega) (by omega)

theorem bytes_per_clus_eq : v.fileSystem.bytesPerClus = v.clusterSize := by
  have small : v.clusterSize < 2 ^ 32 := Nat.lt_of_le_of_lt (cluster_size_le v) (by decide)
  exact Nat.mod_eq_of_lt small

theorem volume_read_returns (start size : Nat) (len : Nat) (below : offset < 2 ^ 32 - v.clusterSize)
    :
    ∃ turns result copied,
      v.fileSystem.read v.disk turns start size offset len = .ok (result, copied) := by
  have size_eq := bytes_per_clus_eq v
  apply read_returns rfl
  · rw [size_eq, cluster_size_whole]
  · rw [size_eq]
    exact cluster_size_pos v
  · rwa [size_eq]

/-- A read that returns has copied the clamped length, from an offset below the last cluster of
the 32-bit range. -/
theorem volume_read_count {start size : Nat}
    (reads : v.fileSystem.read v.disk turns start size offset len = .ok (result, copied)) :
    result = toInt (clamp size offset len) ∧ copied.length = clamp size offset len ∧
      offset < 2 ^ 32 - v.clusterSize := by
  have size_eq := bytes_per_clus_eq v
  have whole : v.fileSystem.bytesPerClus % 512 = 0 := by rw [size_eq, cluster_size_whole]
  have positive : 0 < v.fileSystem.bytesPerClus := by rw [size_eq]; exact cluster_size_pos v
  obtain ⟨returned, count⟩ := read_count rfl whole positive reads
  refine ⟨returned, count, ?_⟩
  obtain ⟨clus, walks, _⟩ := bind_eq_ok.mp reads
  rw [← Nat.one_mul v.fileSystem.bytesPerClus] at walks
  have small := cluster_size_le v
  rw [← size_eq]
  apply walk_ends _ _ walks
  · rw [size_eq]
    exact cluster_size_dvd v
  · omega

end Volumes

theorem to_int_of_lt {n : Nat} (small : n < 2 ^ 31) : toInt n = n := by
  apply Int.bmod_eq_of_le_mul_two
  · omega
  · omega

theorem to_int_lt (n : Nat) : toInt n < (2 ^ 31 : Nat) := by
  have below := @Int.bmod_lt (n : Int) (2 ^ 32) (by decide)
  unfold toInt
  omega

theorem clamp_within {size : Nat} (within : offset ≤ size) (size_lt : size < 2 ^ 64)
    (unwrapped : offset + len < 2 ^ 64) : clamp size offset len = min len (size - offset) := by
  rw [clamp]
  split
  · omega
  · omega

/-- Where the sum wraps, the length is not clamped; behind the end it is clamped to a wrapped
difference. Either way it is too long. -/
theorem clamp_beyond {size : Nat} (size_lt : size < 2 ^ 64) (offset_lt : offset < 2 ^ 64)
    (len_lt : len < 2 ^ 64) (beyond : size < offset ∨ 2 ^ 64 ≤ offset + len) :
    min len (size - offset) < clamp size offset len := by
  rw [clamp]
  split
  · omega
  · omega

/-- A read ends, copies nothing from the end of the file on, and never more than the file has. -/
def ReadsWithin (v : Volume) (start size offset len : Nat) : Prop :=
  ∃ turns result copied,
    v.fileSystem.read v.disk turns start size offset len = .ok (result, copied) ∧
    (size ≤ offset → result = 0 ∧ copied = []) ∧ copied.length ≤ min len (size - offset)

/-- A read stays within the file exactly when its offset does, the end of the request is a
`size_t`, and the offset is below the last cluster of the 32-bit range.

Proof: such a read returns, and its clamped length is what the file has. Conversely a read that
returns has walked to the cluster of its offset, so the offset is below the last cluster, and it
has copied its clamped length, which is too long in the other cases. -/
theorem read_within_iff (v : Volume) (start : Nat) {size offset len : Nat}
    (size_lt : size < 2 ^ 64) (offset_lt : offset < 2 ^ 64) (len_lt : len < 2 ^ 64) :
    ReadsWithin v start size offset len ↔
      offset ≤ size ∧ offset + len < 2 ^ 64 ∧ offset < 2 ^ 32 - v.clusterSize := by
  constructor
  · rintro ⟨turns, result, copied, reads, atEnd, most⟩
    obtain ⟨_, count, below⟩ := volume_read_count v reads
    by_cases beyond : size < offset ∨ 2 ^ 64 ≤ offset + len
    · have long := clamp_beyond size_lt offset_lt len_lt beyond
      omega
    · exact ⟨by omega, by omega, below⟩
  · rintro ⟨within, unwrapped, below⟩
    obtain ⟨turns, result, copied, reads⟩ := volume_read_returns v start size len below
    obtain ⟨returned, count, _⟩ := volume_read_count v reads
    rw [clamp_within within size_lt unwrapped] at returned count
    refine ⟨turns, result, copied, reads, ?_, by omega⟩
    intro atEnd
    have nothing : min len (size - offset) = 0 := by omega
    rw [nothing] at returned count
    exact ⟨returned.trans (to_int_of_lt (by decide)), List.length_eq_zero_iff.mp count⟩

/-! ## Reads of the file's content -/

section Contents

variable {v : Volume} (f : File v)

theorem clus_to_sector_eq {c : Nat} (valid : 2 ≤ c ∧ c < v.clusters + 2) :
    v.fileSystem.clus2Sector c * 512 = v.clusterAddr c ∧
      v.fileSystem.clus2Sector c + 2 ^ v.exponent < 2 ^ 32 := by
  have scaled : (c - 2) * 2 ^ v.exponent + 2 ^ v.exponent ≤ v.clusters * 2 ^ v.exponent := by
    rw [← Nat.succ_mul]
    exact Nat.mul_le_mul_right _ (by omega)
  have fits := v.fits
  have addressable := v.addressable
  have positive := Nat.two_pow_pos v.exponent
  have difference : (c + 2 ^ 32 - v.rootClus) % 2 ^ 32 = c - 2 := by
    rw [v.root_first]
    omega
  have sector : v.fileSystem.clus2Sector c =
      v.reserved + v.fatSize * v.numFats + (c - 2) * 2 ^ v.exponent := by
    rw [clus2Sector]
    dsimp only [Volume.fileSystem]
    rw [difference]
    exact Nat.mod_eq_of_lt (by omega)
  rw [sector]
  exact ⟨rfl, by omega⟩

/-- The table entry that `get_next_clus_in_FAT` finds is the one of the cluster. -/
theorem get_next_eq {c : Nat} (valid : c < v.clusters + 2) :
    v.fileSystem.getNextClusInFat v.disk c = .ok (v.entry c) := by
  have reserved := v.reserved_lt
  have addressable := v.addressable
  have word : v.reserved + c / 128 < 2 ^ 32 := by omega
  exact get_next_entry rfl word

/-- The cluster of a position of the file. -/
def File.clusterOf (k : Nat) : Nat := f.chain.getD (k / v.clusterSize) 0

theorem cluster_of_valid (inside : k < f.size) :
    2 ≤ f.clusterOf k ∧ f.clusterOf k < v.clusters + 2 := by
  have index : k / v.clusterSize < f.chain.length :=
    Nat.div_lt_of_lt_mul (Nat.lt_of_lt_of_le inside (by rw [Nat.mul_comm]; exact f.covers))
  rw [File.clusterOf, List.getD_eq_getElem _ _ index]
  exact f.clusters _ (List.getElem_mem index)

theorem entry_cluster_of {next : Nat} (inside : next < f.size)
    (following : next / v.clusterSize = k / v.clusterSize + 1) :
    v.entry (f.clusterOf k) = f.clusterOf next := by
  have index : next / v.clusterSize < f.chain.length :=
    Nat.div_lt_of_lt_mul (Nat.lt_of_lt_of_le inside (by rw [Nat.mul_comm]; exact f.covers))
  rw [following] at index
  rw [File.clusterOf, File.clusterOf, following, List.getD_eq_getElem _ _ (by omega),
    List.getD_eq_getElem _ _ index]
  exact f.linked _ index

theorem cluster_of_zero (inside : 0 < f.size) : f.clusterOf 0 = f.start := by
  have positive : 0 < f.chain.length := by
    apply Nat.pos_of_ne_zero
    intro none
    have covers := f.covers
    rw [none] at covers
    omega
  rw [File.clusterOf, Nat.zero_div, List.getD_eq_getElem _ _ positive]
  exact f.starts positive

/-- The bytes of one cluster of the file lie together. -/
theorem content_add {pos : Nat} (inside : pos % v.clusterSize + k < v.clusterSize) :
    f.content (pos + k) = v.disk (v.clusterAddr (f.clusterOf pos) + (pos % v.clusterSize + k)) := by
  have small : k < v.clusterSize := by omega
  have joint : pos % v.clusterSize + k % v.clusterSize < v.clusterSize := by
    rwa [Nat.mod_eq_of_lt small]
  have quotient : (pos + k) / v.clusterSize = pos / v.clusterSize := by
    rw [Nat.add_div_eq_of_add_mod_lt joint, Nat.div_eq_of_lt small, Nat.add_zero]
  have remainder : (pos + k) % v.clusterSize = pos % v.clusterSize + k := by
    rw [Nat.add_mod_of_add_mod_lt joint, Nat.mod_eq_of_lt small]
  rw [File.content, File.clusterOf, quotient, remainder]

theorem walk_finds {j found : Nat} (inside : offset < f.size)
    (below : offset < 2 ^ 32 - v.clusterSize) (passed : j * v.clusterSize ≤ offset)
    (walks : v.fileSystem.walk v.disk offset turns ((j + 1) * v.clusterSize)
      (f.clusterOf (j * v.clusterSize)) = .ok found) : found = f.clusterOf offset := by
  have positive := cluster_size_pos v
  induction turns generalizing j with
  | zero => simp [walk] at walks
  | succ turns ih =>
    rw [walk] at walks
    split at walks
    · rename_i reached
      have within : j * v.clusterSize < f.size := by omega
      have valid := cluster_of_valid f within
      have links : v.entry (f.clusterOf (j * v.clusterSize)) =
          f.clusterOf ((j + 1) * v.clusterSize) := by
        apply entry_cluster_of f (by omega)
        rw [Nat.mul_div_cancel _ positive, Nat.mul_div_cancel _ positive]
      rw [get_next_eq valid.2, links, bytes_per_clus_eq, Nat.mod_eq_of_lt (by omega),
        ← Nat.succ_mul] at walks
      exact ih reached walks
    · cases walks
      have same : offset / v.clusterSize = j := by
        apply Nat.div_eq_of_lt_le
        · exact passed
        · omega
      rw [File.clusterOf, File.clusterOf, Nat.mul_div_cancel _ positive, same]

/-- The cursor is at a sector of the file, with bytes of the file still asked for. -/
structure File.At (pos : Nat) (c : Cursor) : Prop where
  clus : c.clus = f.clusterOf pos
  pClus : c.pClus = pos % v.clusterSize
  aligned : pos % 512 = 0
  left : 0 < c.rSize
  inside : pos + c.rSize ≤ f.size

variable {f} {pos : Nat} {c' : Cursor}

theorem sector_inside (aligned : pos % 512 = 0) : pos % v.clusterSize + 512 ≤ v.clusterSize := by
  have whole := cluster_size_whole v
  have below := Nat.mod_lt pos (cluster_size_pos v)
  have sector : pos % v.clusterSize % 512 = 0 := by
    rw [Nat.mod_mod_of_dvd _ (Nat.dvd_of_mod_eq_zero whole), aligned]
  omega

theorem sector_address {sector : Nat} (k : Nat) (aligned : pos % 512 = 0) :
    (sector + pos / 512) * 512 + k = sector * 512 + (pos + k) := by
  omega

/-- The sector at the cursor is the file's. -/
theorem copy_sector_content (place : f.At pos c) (most : len ≤ 512) :
    v.fileSystem.copySector v.disk c len = .ok (slice f.content pos len) := by
  have left := place.left
  have inside := place.inside
  obtain ⟨address, fits⟩ := clus_to_sector_eq (cluster_of_valid f (by omega : pos < f.size))
  have bound := sector_inside (v := v) place.aligned
  have sector : pos % v.clusterSize % 512 = 0 := by
    rw [Nat.mod_mod_of_dvd _ (Nat.dvd_of_mod_eq_zero (cluster_size_whole v)), place.aligned]
  have size : v.clusterSize = 512 * 2 ^ v.exponent := rfl
  rw [copy_sector_eq rfl most, place.clus, place.pClus, Nat.mod_eq_of_lt (by omega)]
  apply congrArg Except.ok
  apply slice_eq_iff.mpr
  intro k below
  rw [content_add f (by omega), ← address, sector_address k sector]

/-- After a whole sector the cursor is at the next sector of the file. -/
theorem advance_content (place : f.At pos c) (more : 512 < c.rSize) :
    v.fileSystem.advance v.disk c.clus c.pClus =
      .ok (f.clusterOf (pos + 512), (pos + 512) % v.clusterSize) := by
  have inside := place.inside
  have bound := sector_inside (v := v) place.aligned
  have positive := cluster_size_pos v
  have parts := Nat.div_add_mod' pos v.clusterSize
  rw [advance, bytes_per_clus_eq, place.clus, place.pClus]
  split
  · have next : pos + 512 = (pos / v.clusterSize + 1) * v.clusterSize := by
      rw [Nat.succ_mul]
      omega
    have following : (pos + 512) / v.clusterSize = pos / v.clusterSize + 1 := by
      rw [next, Nat.mul_div_cancel _ positive]
    rw [get_next_eq (cluster_of_valid f (by omega : pos < f.size)).2, bind_ok,
      entry_cluster_of f (by omega) following, next, Nat.mul_mod_left]
  · have small : 512 < v.clusterSize := by omega
    have joint : pos % v.clusterSize + 512 % v.clusterSize < v.clusterSize := by
      rw [Nat.mod_eq_of_lt small]
      omega
    rw [Nat.add_mod_of_add_mod_lt joint, Nat.mod_eq_of_lt small, File.clusterOf, File.clusterOf,
      Nat.add_div_eq_of_add_mod_lt joint, Nat.div_eq_of_lt small,
      Nat.add_zero (pos / v.clusterSize)]

theorem copy_sectors_content (place : f.At pos c)
    (copies : v.fileSystem.copySectors v.disk turns c = .ok c') :
    ∃ count, f.At (pos + count) c' ∧ c'.rSize ≤ 512 ∧ count + c'.rSize = c.rSize ∧
      c'.copied = c.copied ++ slice f.content pos count := by
  induction turns generalizing pos c with
  | zero => simp [copySectors] at copies
  | succ turns ih =>
    rw [copySectors] at copies
    split at copies
    · rename_i more
      have inside := place.inside
      rw [copy_sector_content place (Nat.le_refl 512), advance_content place more] at copies
      have next : f.At (pos + 512) ⟨f.clusterOf (pos + 512), (pos + 512) % v.clusterSize,
          c.rSize - 512, c.copied ++ slice f.content pos 512⟩ := by
        refine ⟨rfl, rfl, ?_, ?_, ?_⟩
        · have aligned := place.aligned
          omega
        · dsimp only
          omega
        · dsimp only
          omega
      obtain ⟨count, place', small, sum, copied⟩ := ih next copies
      dsimp only at sum copied
      refine ⟨512 + count, ?_, small, by omega, ?_⟩
      · rwa [← Nat.add_assoc]
      · rw [copied, slice_add, List.append_assoc]
    · cases copies
      exact ⟨0, place, by omega, Nat.zero_add _, (List.append_nil _).symm⟩

/-- From a sector on, the rest of the bytes asked for are the file's. -/
theorem copy_rest_content (place : f.At pos c)
    (copies : v.fileSystem.copySectors v.disk turns c = .ok c')
    (ends : v.fileSystem.copyTail v.disk c' = .ok copied) :
    copied = c.copied ++ slice f.content pos c.rSize := by
  obtain ⟨count, place', small, sum, sectors⟩ := copy_sectors_content place copies
  have left := place'.left
  rw [copyTail, if_neg (by omega), copy_sector_content place' small] at ends
  cases ends
  rw [sectors, ← sum, slice_add, List.append_assoc]

/-- Behind the first, partial sector the cursor is at the next sector of the file, in the same
cluster or in the next one. -/
theorem next_cluster_content {s : Nat} (clus : c.clus = f.clusterOf offset)
    (pClus : c.pClus = offset % v.clusterSize + s) (aligned : (offset + s) % 512 = 0)
    (short : s < 512) (left : 0 < c.rSize) (inside : offset + s + c.rSize ≤ f.size)
    (enters : v.fileSystem.nextCluster v.disk c = .ok c') :
    f.At (offset + s) c' ∧ c'.copied = c.copied ∧ c'.rSize = c.rSize := by
  have positive := cluster_size_pos v
  have parts := Nat.div_add_mod' offset v.clusterSize
  rw [nextCluster, bytes_per_clus_eq] at enters
  split at enters
  · have next : offset + s = (offset / v.clusterSize + 1) * v.clusterSize := by
      rw [Nat.succ_mul]
      omega
    have following : (offset + s) / v.clusterSize = offset / v.clusterSize + 1 := by
      rw [next, Nat.mul_div_cancel _ positive]
    have within : offset < f.size := by omega
    rw [clus, get_next_eq (cluster_of_valid f within).2,
      entry_cluster_of f (by omega) following] at enters
    cases enters
    refine ⟨⟨rfl, ?_, aligned, left, inside⟩, rfl, rfl⟩
    rw [next, Nat.mul_mod_left]
  · split at enters
    · contradiction
    · cases enters
      have small : s < v.clusterSize := by omega
      have joint : offset % v.clusterSize + s % v.clusterSize < v.clusterSize := by
        rw [Nat.mod_eq_of_lt small]
        omega
      refine ⟨⟨?_, ?_, aligned, left, inside⟩, rfl, rfl⟩
      · rw [clus, File.clusterOf, File.clusterOf, Nat.add_div_eq_of_add_mod_lt joint,
          Nat.div_eq_of_lt small, Nat.add_zero (offset / v.clusterSize)]
      · rw [pClus, Nat.add_mod_of_add_mod_lt joint, Nat.mod_eq_of_lt small]

/-- How many bytes a read of `count` bytes takes from a partial first sector. -/
def headLength (offset count : Nat) : Nat :=
  if offset % 512 = 0 then 0 else min (512 - offset % 512) count

section

variable (within : offset ≤ f.size) (below : offset < 2 ^ 32 - v.clusterSize)
  (unwrapped : offset + len < 2 ^ 64)
  (reads : v.fileSystem.read v.disk turns f.start f.size offset len = .ok (result, copied))
include within below unwrapped reads

/-- What a read copies: the bytes of the partial first sector at the start of the cluster, then
the file's bytes. -/
theorem read_content :
    copied =
      slice v.disk (v.clusterAddr (f.clusterOf offset) + offset % 512)
        (headLength offset (min len (f.size - offset))) ++
      slice f.content (offset + headLength offset (min len (f.size - offset)))
        (min len (f.size - offset) - headLength offset (min len (f.size - offset))) := by
  have size_lt := f.size_lt
  have size_eq := bytes_per_clus_eq v
  have clamped : clamp f.size offset len = min len (f.size - offset) :=
    clamp_within within (by omega) unwrapped
  have whole := cluster_size_whole v
  generalize asked : min len (f.size - offset) = count at clamped ⊢
  rcases Nat.eq_zero_or_pos count with rfl | some
  · have none := (volume_read_count v reads).2.1
    rw [clamped] at none
    simp [headLength, List.length_eq_zero_iff.mp none]
  · have inside : offset < f.size := by omega
    rw [FileSystem.read, clamped] at reads
    obtain ⟨clus, walks, reads⟩ := bind_eq_ok.mp reads
    rw [← cluster_of_zero f (by omega), size_eq, ← Nat.one_mul v.clusterSize] at walks
    have found : clus = f.clusterOf offset := by
      apply walk_finds f (j := 0) inside below (by omega)
      rwa [Nat.zero_mul]
    subst found
    have valid := cluster_of_valid f inside
    have remainder : offset % v.clusterSize % 512 = offset % 512 :=
      Nat.mod_mod_of_dvd _ (Nat.dvd_of_mod_eq_zero whole)
    rw [size_eq] at reads
    rw [headLength]
    split
    · rename_i aligned
      rw [copyHead, if_pos (by rw [remainder, aligned]), bind_ok,
        if_neg (by dsimp only; omega)] at reads
      obtain ⟨c₁, enters, reads⟩ := bind_eq_ok.mp reads
      obtain ⟨c₂, copies, reads⟩ := bind_eq_ok.mp reads
      obtain ⟨bytes, ends, reads⟩ := bind_eq_ok.mp reads
      obtain ⟨rfl, rfl⟩ := Prod.mk.inj (Except.ok.inj reads)
      obtain ⟨place, kept, left⟩ := next_cluster_content rfl (Nat.add_zero _).symm
        (by rwa [Nat.add_zero]) (by omega) some (by dsimp only; omega) enters
      rw [copy_rest_content place copies ends, kept, left]
      simp
    · rw [copy_head_eq rfl _ (by dsimp only; rwa [remainder]), bind_ok] at reads
      dsimp only at reads
      rw [remainder, (clus_to_sector_eq valid).1, List.nil_append] at reads
      split at reads
      · rename_i done
        obtain ⟨rfl, rfl⟩ := Prod.mk.inj (Except.ok.inj reads)
        rw [done, slice_zero, List.append_nil]
      · obtain ⟨c₁, enters, reads⟩ := bind_eq_ok.mp reads
        obtain ⟨c₂, copies, reads⟩ := bind_eq_ok.mp reads
        obtain ⟨bytes, ends, reads⟩ := bind_eq_ok.mp reads
        obtain ⟨rfl, rfl⟩ := Prod.mk.inj (Except.ok.inj reads)
        obtain ⟨place, kept, left⟩ := next_cluster_content rfl rfl (by omega) (by omega)
          (by dsimp only; omega) (by dsimp only; omega) enters
        rw [copy_rest_content place copies ends, kept, left]

/-- A read that returned has returned the file's bytes exactly when their number is an `int` and
the bytes before the first whole sector are those at the same place of the first sector of their
cluster. -/
theorem read_matches_iff :
    (result = (min len (f.size - offset) : Nat) ∧
        copied = slice f.content offset (min len (f.size - offset))) ↔
      min len (f.size - offset) < 2 ^ 31 ∧
      ∀ k, k < headLength offset (min len (f.size - offset)) →
        v.disk (v.clusterAddr (f.clusterOf offset) + offset % 512 + k) =
          f.content (offset + k) := by
  have size_lt := f.size_lt
  have returned := (volume_read_count v reads).1
  have bytes := read_content within below unwrapped reads
  rw [clamp_within within (by omega) unwrapped] at returned
  generalize min len (f.size - offset) = count at *
  have most : headLength offset count ≤ count := by
    rw [headLength]
    split
    · exact Nat.zero_le _
    · exact Nat.min_le_right _ _
  -- The file's bytes split where the read changes from one region to the next.
  have split : slice f.content offset count =
      slice f.content offset (headLength offset count) ++
      slice f.content (offset + headLength offset count) (count - headLength offset count) := by
    rw [← slice_add, Nat.add_sub_cancel' most]
  constructor
  · rintro ⟨exact_result, exact_bytes⟩
    constructor
    · have small := to_int_lt count
      rw [← returned, exact_result] at small
      exact Int.ofNat_lt.mp small
    · rw [bytes, split] at exact_bytes
      exact slice_eq_iff.mp (List.append_cancel_right exact_bytes)
  · rintro ⟨small, same⟩
    rw [to_int_of_lt small] at returned
    rw [slice_eq_iff.mpr same, ← split] at bytes
    exact ⟨returned, bytes⟩

end

variable (f)

/-- A read returns how many of the bytes asked for the file has, and copies exactly these. -/
def ReadsFile (offset len : Nat) : Prop :=
  ∃ turns, v.fileSystem.read v.disk turns f.start f.size offset len =
    .ok ((min len (f.size - offset) : Nat), slice f.content offset (min len (f.size - offset)))

/-- A read returns the file's bytes exactly when their number is an `int` and the bytes before
the first whole sector happen to be those at the same place of the cluster's first sector (as
they are when the offset is in that sector, or when there are none). -/
theorem reads_file_iff {offset len : Nat} (within : offset ≤ f.size)
    (bound : offset + len < 2 ^ 32 - v.clusterSize) :
    ReadsFile f offset len ↔
      min len (f.size - offset) < 2 ^ 31 ∧
      ∀ k, k < headLength offset (min len (f.size - offset)) →
        v.disk (v.clusterAddr (f.clusterOf offset) + offset % 512 + k) =
          f.content (offset + k) := by
  have below : offset < 2 ^ 32 - v.clusterSize := by omega
  have unwrapped : offset + len < 2 ^ 64 := by omega
  constructor
  · rintro ⟨turns, reads⟩
    exact (read_matches_iff within below unwrapped reads).mp ⟨rfl, rfl⟩
  · intro condition
    obtain ⟨turns, result, copied, reads⟩ := volume_read_returns v f.start f.size len below
    obtain ⟨rfl, rfl⟩ := (read_matches_iff within below unwrapped reads).mpr condition
    exact ⟨turns, reads⟩

end Contents

/-! ## A volume with one file -/

/-- A volume with one cluster of two sectors; the second sector is filled with ones. -/
def stripedVolume : Volume where
  disk := fun x => if 1536 ≤ x then 1 else 0
  exponent := 1
  reserved := 1
  numFats := 1
  fatSize := 1
  clusters := 1
  rootClus := 2
  root_first := rfl
  exponent_le := by decide
  reserved_lt := by decide
  addressable := by decide
  covered := by decide
  fits := by decide

/-- A file that fills the cluster. -/
def stripedFile : File stripedVolume where
  start := 2
  size := 1024
  chain := [2]
  size_lt := by decide
  clusters := by decide
  starts := fun _ => rfl
  linked := fun i next => absurd next (by simp)
  covers := by decide

theorem striped_file_read : ReadsFile stripedFile 0 1024 :=
  (reads_file_iff stripedFile (by decide) (by decide)).mpr
    ⟨by decide, fun k below => absurd below (Nat.not_lt_zero k)⟩

/-- One byte into the second sector, the byte returned is the one at that place of the first. -/
theorem striped_file_misread : ¬ ReadsFile stripedFile 513 1 := by
  rintro ⟨turns, reads⟩
  have copied := read_content (by decide) (by decide) (by decide) reads
  exact absurd copied (by decide)

theorem striped_file_within :
    ReadsWithin stripedVolume stripedFile.start stripedFile.size 1024 1 :=
  (read_within_iff stripedVolume stripedFile.start (by decide) (by decide) (by decide)).mpr
    (by decide)

/-- One byte past the end of the file, a read of one byte copies almost the whole address space. -/
theorem striped_file_beyond :
    ¬ ReadsWithin stripedVolume stripedFile.start stripedFile.size 1025 1 := by
  rintro ⟨turns, result, copied, reads, atEnd, most⟩
  have count := (volume_read_count stripedVolume reads).2.1
  rw [(atEnd (by decide)).2] at count
  exact absurd count (by decide)

end Mftt.Fat
