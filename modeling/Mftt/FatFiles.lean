import Mftt.BlockCache
import Mftt.ByteMemory

/-!
# Files of a FAT32 volume

What a volume and its files are, and `read` of `fs/fatfs/fatfs_impl_omochaos.c`. A file
is a chain of clusters that the table links one to the next; its content is what these
clusters hold, one after the other. `read` walks the chain to the cluster of the offset,
copies up to the next sector, then whole sectors, then the rest.

The file system's `uint32_t` arithmetic is taken modulo `2 ^ 32` and `size_t` modulo
`2 ^ 64` where it can wrap. Buffers come from `bio_cache_read`, which is taken to
return the bytes of the disk at its address. The bytes a call writes into the caller's
buffer are the list of what it copied, since it copies from the start of the buffer on.
-/

namespace Mftt.Fat

open Slices

/-- The fields of `struct FAT32_FileSystem` that reading a file uses. -/
structure FileSystem where
  bytesPerSec : Nat
  secPerClus : Nat
  fatStartSct : Nat
  rootClus : Nat
  firstDataClus : Nat
  deriving DecidableEq, Repr

/-! ## Volumes and files -/

/-- A FAT32 volume: a disk of 512-byte sectors with a reserved area, the file allocation tables
and the clusters, of `2 ^ exponent` sectors each. The root directory starts in the first cluster;
otherwise `CLUS2SECTOR` misses every cluster. -/
structure Volume where
  disk : Nat → UInt8
  exponent : Nat
  reserved : Nat
  numFats : Nat
  fatSize : Nat
  clusters : Nat
  rootClus : Nat
  root_first : rootClus = 2
  exponent_le : exponent ≤ 7
  reserved_lt : reserved < 2 ^ 16
  addressable : clusters + 2 ≤ 0x0FFFFFF7
  covered : clusters + 2 ≤ 128 * fatSize
  fits : reserved + fatSize * numFats + clusters * 2 ^ exponent < 2 ^ 32

namespace Volume

variable (v : Volume)

/-- What mounting the volume puts into `struct FAT32_FileSystem`. -/
def fileSystem : FileSystem where
  bytesPerSec := 512
  secPerClus := 2 ^ v.exponent
  fatStartSct := v.reserved
  rootClus := v.rootClus
  firstDataClus := v.reserved + v.fatSize * v.numFats

/-- The bytes of a cluster. -/
def clusterSize : Nat := 512 * 2 ^ v.exponent

/-- Where a cluster starts on the disk. -/
def clusterAddr (c : Nat) : Nat :=
  (v.reserved + v.fatSize * v.numFats + (c - 2) * 2 ^ v.exponent) * 512

/-- The entry of a cluster in the table: the low 28 bits of a little-endian word. -/
def entry (c : Nat) : Nat :=
  ByteMemory.load (fun x => (v.disk x).toBitVec) (v.reserved * 512 + 4 * c) 4 % 2 ^ 28

end Volume

/-- A regular file: where its chain starts, its size, and the chain, which covers the size. -/
structure File (v : Volume) where
  start : Nat
  size : Nat
  chain : List Nat
  size_lt : size < 2 ^ 32
  clusters : ∀ c ∈ chain, 2 ≤ c ∧ c < v.clusters + 2
  starts : ∀ h : 0 < chain.length, chain[0] = start
  linked : ∀ i, ∀ h : i + 1 < chain.length, v.entry chain[i] = chain[i + 1]
  covers : size ≤ chain.length * v.clusterSize

/-- The byte of a file at a position: clusters one after the other. -/
def File.content {v : Volume} (f : File v) (k : Nat) : UInt8 :=
  v.disk (v.clusterAddr (f.chain.getD (k / v.clusterSize) 0) + k % v.clusterSize)

/-! ## The read operation -/

/-- `bio_cache_read`: the sector of the disk at an aligned address. -/
def bioCacheRead (disk : Nat → UInt8) (addr : Nat) : Except Fault (Nat → UInt8) :=
  assert (addr % BUFFER_SIZE = 0) "Addr must be aligned to buffer size." >>= fun _ =>
    .ok fun k => disk (addr + k)

/-- The conversion of a `size_t` to the `int` that the operation returns. -/
def toInt (n : Nat) : Int := (n : Int).bmod (2 ^ 32)

/-- `if (offset + len > i_size) len = i_size - offset`, on `size_t`. -/
def clamp (size offset len : Nat) : Nat :=
  if size < (offset + len) % 2 ^ 64 then (2 ^ 64 + size - offset) % 2 ^ 64 else len

/-- The cluster, the position in it, the bytes still asked for and the bytes copied. -/
structure Cursor where
  clus : Nat
  pClus : Nat
  rSize : Nat
  copied : List UInt8

namespace FileSystem

variable (fs : FileSystem) (disk : Nat → UInt8)

/-- `CLUS2SECTOR`. -/
def clus2Sector (n : Nat) : Nat :=
  (fs.firstDataClus + (n + 2 ^ 32 - fs.rootClus) % 2 ^ 32 * fs.secPerClus) % 2 ^ 32

/-- `get_next_clus_in_FAT`. -/
def getNextClusInFat (clus : Nat) : Except Fault Nat :=
  let sectorOfClusInFat := clus / 128
  bioCacheRead disk ((fs.fatStartSct + sectorOfClusInFat) % 2 ^ 32 * fs.bytesPerSec) >>=
    fun data =>
      .ok (ByteMemory.load (fun x => (data x).toBitVec) (4 * (clus - 128 * sectorOfClusInFat)) 4
        % 2 ^ 28)

def bytesPerClus : Nat := 512 * fs.secPerClus % 2 ^ 32

/-- `for (p = BytesPerClus; p <= offset; p += BytesPerClus)`, with `p` of 32 bits. -/
def walk (offset : Nat) : Nat → Nat → Nat → Except Fault Nat
  | 0, _, _ => .error .unfinished
  | turns + 1, p, clus =>
    if p ≤ offset then
      fs.getNextClusInFat disk clus >>= walk offset turns ((p + fs.bytesPerClus) % 2 ^ 32)
    else .ok clus

/-- Copy up to the next sector. The buffer read is the first sector of the cluster. -/
def copyHead (c : Cursor) : Except Fault Cursor :=
  if c.pClus % 512 = 0 then .ok c
  else
    let s := min (512 - c.pClus % 512) c.rSize
    bioCacheRead disk (fs.clus2Sector c.clus * fs.bytesPerSec) >>= fun data =>
      copyData data (c.pClus % 512) s >>= fun bytes =>
        .ok ⟨c.clus, c.pClus + s, c.rSize - s, c.copied ++ bytes⟩

/-- The cluster of the first whole sector. -/
def nextCluster (c : Cursor) : Except Fault Cursor :=
  if c.pClus = fs.bytesPerClus then
    fs.getNextClusInFat disk c.clus >>= fun clus => .ok { c with clus := clus, pClus := 0 }
  else if fs.bytesPerClus < c.pClus then kpanic "Error of p_clus' value!"
  else .ok c

/-- The first `len` bytes of the sector at the cursor. -/
def copySector (c : Cursor) (len : Nat) : Except Fault (List UInt8) :=
  bioCacheRead disk ((fs.clus2Sector c.clus + c.pClus / 512) % 2 ^ 32 * fs.bytesPerSec) >>=
    fun data => copyData data 0 len

/-- The cluster and the position after a whole sector. -/
def advance (clus pClus : Nat) : Except Fault (Nat × Nat) :=
  if fs.bytesPerClus ≤ pClus + 512 then
    fs.getNextClusInFat disk clus >>= fun clus => .ok (clus, 0)
  else .ok (clus, pClus + 512)

/-- `for (; r_size > 512;)`. -/
def copySectors : Nat → Cursor → Except Fault Cursor
  | 0, _ => .error .unfinished
  | turns + 1, c =>
    if 512 < c.rSize then
      fs.copySector disk c 512 >>= fun bytes =>
        fs.advance disk c.clus c.pClus >>= fun (clus, pClus) =>
          copySectors turns ⟨clus, pClus, c.rSize - 512, c.copied ++ bytes⟩
    else .ok c

/-- `if (r_size)` after the loop. -/
def copyTail (c : Cursor) : Except Fault (List UInt8) :=
  if c.rSize = 0 then .ok c.copied
  else fs.copySector disk c c.rSize >>= fun bytes => .ok (c.copied ++ bytes)

/-- `read`: what it returns and the bytes it copies to the buffer. Both loops get the same bound
on their turns. -/
def read (turns start size offset len : Nat) : Except Fault (Int × List UInt8) :=
  let len := clamp size offset len
  fs.walk disk offset turns fs.bytesPerClus start >>= fun clus =>
    fs.copyHead disk ⟨clus, offset % fs.bytesPerClus, len, []⟩ >>= fun c =>
      if c.rSize = 0 then .ok (toInt len, c.copied)
      else
        fs.nextCluster disk c >>= fun c =>
          fs.copySectors disk turns c >>= fun c =>
            fs.copyTail disk c >>= fun copied => .ok (toInt len, copied)

end FileSystem

end Mftt.Fat
