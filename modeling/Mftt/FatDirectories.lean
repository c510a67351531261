import Mathlib.Data.List.TakeWhile
import Mftt.FatGeometry

/-!
# Directories of a FAT32 volume

`loop_fat_dirent` of `fs/fatfs/fatfs_impl_omochaos.c` goes through the entries of a directory,
sector by sector and cluster by cluster, and calls a function for each file. A file may have a
long name. Its pieces stand in entries in front of the short one, the last piece first, and the
loop assembles them from the end of a buffer downwards. The size of the buffer comes from the
first of these entries. Without long name the short name is written into an array of twelve bytes.

`char` is unsigned on this machine. A write outside the buffer or the array is a fault where the
loop is `strict`; otherwise the byte goes elsewhere, as if there were room, and the loop goes on.
The callback is given by what it returns, and `kmalloc` by the requests it serves after a number of
callbacks: between two callbacks there is one request at most.
-/

namespace Mftt.Fat

open Slices

/-! ## Entries -/

/-- The 32 bytes of `union FAT32_DirEnt`. -/
abbrev DirEnt := List UInt8

namespace DirEnt

variable (e : DirEnt)

def byte (k : Nat) : UInt8 := e.getD k 0

/-- The first byte: of the name, or the order of a piece. -/
def first : UInt8 := DirEnt.byte e 0

def attr : UInt8 := DirEnt.byte e 11

/-- `L_ChkSum`. -/
def chkSum : UInt8 := DirEnt.byte e 13

/-- `L_Ord & 0x1F`. -/
def ord : Nat := (DirEnt.first e &&& 0x1F).toNat

/-- The low bytes of `L_Name3`, `L_Name2` and `L_Name1`, each from its end. -/
def pieces : List UInt8 := [30, 28, 24, 22, 20, 18, 16, 14, 9, 7, 5, 3, 1].map (DirEnt.byte e)

end DirEnt

def ATTR_VOLUME_ID : UInt8 := 0x08

def FS_ATTR_LONGNAME : UInt8 := 0x0F

/-- One turn of `checksum_fname`: rotate to the right and add. -/
def checksumTurn (checksum ch : UInt8) : UInt8 :=
  let highbit : UInt8 := (checksum &&& 1) <<< 7
  let rotated : UInt8 := (checksum >>> 1) &&& (0x7F : UInt8)
  (rotated ||| highbit) + ch

/-- `checksum_fname` of the eleven bytes of a short name. -/
def checksumFname (fname : List UInt8) : UInt8 := (fname.take 11).foldl checksumTurn 0

/-! ## Short names -/

/-- A store to a buffer of some size. -/
def storeByte (size : Nat) (buffer : List UInt8) (p : Nat) (ch : UInt8) :
    Except Fault (List UInt8) :=
  if p < size then .ok (buffer.set p ch) else .error .outOfBounds

/-- `memcpy` to a buffer of some size. -/
def copyBytes (size : Nat) (buffer : List UInt8) (p : Nat) :
    List UInt8 → Except Fault (List UInt8)
  | [] => .ok buffer
  | ch :: rest => storeByte size buffer p ch >>= fun buffer => copyBytes size buffer (p + 1) rest

/-- `while (p >= buffer && *p == ' ') p--; p++`, from `p` characters on. -/
def nameLength (dname : List UInt8) : Nat → Nat
  | 0 => 0
  | p + 1 => if dname.getD p 0 = 0x20 then nameLength dname p else p + 1

/-- `while (*p == ' ') *(p--) = '\0'`. The dot in front of the extension ends it. -/
def clearBlanks (dname : List UInt8) : Nat → List UInt8
  | 0 => dname
  | p + 1 => if dname.getD (p + 1) 0 = 0x20 then clearBlanks (dname.set (p + 1) 0) p else dname

/-- `read_8_3_filename`, into a buffer of some size. -/
def read83FilenameInto (size : Nat) (fname buffer : List UInt8) : Except Fault (List UInt8) :=
  copyBytes size buffer 0 (fname.take 8) >>= fun buffer =>
    let p := nameLength buffer 8
    if fname.getD 8 0 = 0x20 then storeByte size buffer p 0
    else
      storeByte size buffer p 0x2E >>= fun buffer =>
      copyBytes size buffer (p + 1) ((fname.drop 8).take 3) >>= fun buffer =>
      storeByte size buffer (p + 4) 0 >>= fun buffer => .ok (clearBlanks buffer (p + 3))

/-- The bytes of `dname[12]` that can be written, and the one behind them. -/
def nameSize (strict : Bool) : Nat := if strict then 12 else 13

/-- `read_8_3_filename`, into the array of zeros. -/
def read83Filename (strict : Bool) (fname : List UInt8) : Except Fault (List UInt8) :=
  read83FilenameInto (nameSize strict) fname (List.replicate (nameSize strict) 0)

/-- The string in a buffer. -/
def cString (buffer : List UInt8) : List UInt8 := buffer.takeWhile (· ≠ 0)

/-! ## The loop -/

/-- The buffer of a long name: it has room for `13 * ord` characters and the terminator, and
`chars` have been written, the last one first. -/
structure LongName where
  ord : Nat
  chars : List UInt8
  checksum : UInt8
  deriving DecidableEq

/-- `if (ch != '\0' && ch != 0xFF) *pLong-- = ch`. -/
def LongName.push (strict : Bool) (l : LongName) (ch : UInt8) : Except Fault LongName :=
  if ch ≠ 0 ∧ ch ≠ 0xFF then
    if strict = false ∨ l.chars.length < 13 * l.ord then .ok { l with chars := ch :: l.chars }
    else .error .outOfBounds
  else .ok l

/-- The three loops that copy a piece. -/
def LongName.pushAll (strict : Bool) (l : LongName) : List UInt8 → Except Fault LongName
  | [] => .ok l
  | ch :: rest => l.push strict ch >>= fun l => l.pushAll strict rest

/-- A call of the callback. -/
structure Call where
  entry : DirEnt
  name : List UInt8
  deriving DecidableEq

/-- The state of the loop: the long name that is being assembled, and the calls so far. -/
structure Scan where
  long : Option LongName
  calls : List Call
  deriving DecidableEq

/-- How the loop goes on after an entry. -/
inductive Flow where
  | next (s : Scan)
  | return (s : Scan)

section Loop

variable (strict : Bool) (supply : Nat → Nat → Bool) (callback : DirEnt → List UInt8 → Bool)

/-- The branch for `FS_ATTR_LONGNAME`. -/
def longPiece (s : Scan) (e : DirEnt) : Except Fault Scan :=
  match s.long with
  | none =>
    assert (DirEnt.first e &&& 0x40 ≠ 0) "Order mistake." >>= fun _ =>
    assert (supply s.calls.length (DirEnt.ord e * 13 + 1) = true) "OOM" >>= fun _ =>
    (LongName.mk (DirEnt.ord e) [] (DirEnt.chkSum e)).pushAll strict (DirEnt.pieces e) >>= fun l =>
      .ok { s with long := some l }
  | some l =>
    assert (DirEnt.chkSum e = l.checksum) "Check sum unmatch." >>= fun _ =>
    l.pushAll strict (DirEnt.pieces e) >>= fun l => .ok { s with long := some l }

/-- The call for a short entry. -/
def callBack (s : Scan) (e : DirEnt) : Except Fault Flow :=
  match s.long with
  | some l =>
    assert (l.checksum = checksumFname e) "Check sum failed." >>= fun _ =>
      if callback e l.chars then .ok (.return { s with calls := s.calls ++ [⟨e, l.chars⟩] })
      else .ok (.next ⟨none, s.calls ++ [⟨e, l.chars⟩]⟩)
  | none =>
    read83Filename strict e >>= fun dname =>
      let s := { s with calls := s.calls ++ [⟨e, cString dname⟩] }
      if callback e (cString dname) then .ok (.return s) else .ok (.next s)

/-- One turn of the loop over the entries of a sector, for an entry that is not an end marker. -/
def scanEntry (s : Scan) (e : DirEnt) : Except Fault Flow :=
  if DirEnt.first e = 0xE5 ∨ DirEnt.first e = 0x05 then .ok (.next s)
  else if DirEnt.first e = 0x2E then .ok (.next s)
  else
    (if DirEnt.attr e = FS_ATTR_LONGNAME then longPiece strict supply s e else .ok s) >>= fun s =>
      if DirEnt.attr e &&& ATTR_VOLUME_ID ≠ 0 then .ok (.next s) else callBack strict callback s e

/-- The loop over the entries of a sector, which an end marker leaves. The second component tells
whether the whole routine returned. -/
def scanSector (s : Scan) : List DirEnt → Except Fault (Scan × Bool)
  | [] => .ok (s, false)
  | e :: rest =>
    if DirEnt.first e = 0 then .ok (s, false)
    else
      scanEntry strict supply callback s e >>= fun flow =>
        match flow with
        | .next s => scanSector s rest
        | .return s => .ok (s, true)

/-- The loop over a list of sectors. -/
def scanSectors (s : Scan) : List (List DirEnt) → Except Fault (Scan × Bool)
  | [] => .ok (s, false)
  | sector :: rest =>
    scanSector strict supply callback s sector >>= fun (s, returned) =>
      if returned then .ok (s, true) else scanSectors s rest

end Loop

/-- The entries in a sector. -/
def sectorEntries (data : Nat → UInt8) : List DirEnt :=
  (List.range 16).map fun k => slice data (32 * k) 32

namespace FileSystem

variable (fs : FileSystem) (disk : Nat → UInt8)

/-- The loop over the sectors of a cluster, from sector `i` on. -/
def scanCluster (strict : Bool) (supply : Nat → Nat → Bool)
    (callback : DirEnt → List UInt8 → Bool) (clus : Nat) :
    Nat → Nat → Scan → Except Fault (Scan × Bool)
  | 0, _, s => .ok (s, false)
  | count + 1, i, s =>
    bioCacheRead disk ((fs.clus2Sector clus + i) % 2 ^ 32 * fs.bytesPerSec) >>= fun data =>
      scanSector strict supply callback s (sectorEntries data) >>= fun (s, returned) =>
        if returned then .ok (s, true) else scanCluster strict supply callback clus count (i + 1) s

/-- `dir_clus >= 0xFFFFFF8 && dir_clus <= 0xFFFFFFF`, the end of a chain. -/
def IsEnd (clus : Nat) : Prop := 0xFFFFFF8 ≤ clus ∧ clus ≤ 0xFFFFFFF

instance (clus : Nat) : Decidable (IsEnd clus) := inferInstanceAs (Decidable (_ ∧ _))

/-- `loop_fat_dirent`. -/
def loopFatDirent (strict : Bool) (supply : Nat → Nat → Bool)
    (callback : DirEnt → List UInt8 → Bool) :
    Nat → Nat → Scan → Except Fault Scan
  | 0, _, _ => .error .unfinished
  | turns + 1, dirClus, s =>
    fs.scanCluster disk strict supply callback dirClus fs.secPerClus 0 s >>= fun (s, returned) =>
      if returned then .ok s
      else
        fs.getNextClusInFat disk dirClus >>= fun dirClus =>
          if IsEnd dirClus then .ok s
          else loopFatDirent strict supply callback turns dirClus s

/-! ## The loop along a chain -/

/-- The entries in a sector of a cluster. -/
def dirSector (clus i : Nat) : List DirEnt :=
  sectorEntries fun k => disk (fs.sectorOf clus i * 512 + k)

/-- The sectors of a cluster. -/
def clusterSectors (clus : Nat) : List (List DirEnt) :=
  (List.range fs.secPerClus).map (fs.dirSector disk clus)

/-- The cluster that the table has behind a cluster. -/
def nextClus (clus : Nat) : Nat :=
  field disk ((fs.fatStartSct + clus / 128) % 2 ^ 32 * 512 + 4 * (clus - 128 * (clus / 128))) 4
    % 2 ^ 28

/-- The clusters that the loop goes through in some turns. -/
def chain : Nat → Nat → List Nat
  | 0, _ => []
  | turns + 1, clus =>
    clus :: if IsEnd (fs.nextClus disk clus) then [] else chain turns (fs.nextClus disk clus)

/-- The chain ends in some turns. -/
def ChainEnds : Nat → Nat → Prop
  | 0, _ => False
  | turns + 1, clus => IsEnd (fs.nextClus disk clus) ∨ ChainEnds turns (fs.nextClus disk clus)

instance decidableChainEnds : (turns clus : Nat) → Decidable (fs.ChainEnds disk turns clus)
  | 0, _ => inferInstanceAs (Decidable False)
  | turns + 1, clus =>
    have := decidableChainEnds turns (fs.nextClus disk clus)
    inferInstanceAs (Decidable (_ ∨ _))

end FileSystem

section Chains

variable {strict : Bool} {supply : Nat → Nat → Bool} {callback : DirEnt → List UInt8 → Bool}
  {fs : FileSystem} {disk : Nat → UInt8}

theorem scan_sectors_append (s : Scan) (first second : List (List DirEnt)) :
    scanSectors strict supply callback s (first ++ second) =
      scanSectors strict supply callback s first >>= fun (s, returned) =>
        if returned then .ok (s, true) else scanSectors strict supply callback s second := by
  induction first generalizing s with
  | nil => rfl
  | cons sector rest ih =>
    rw [List.cons_append, scanSectors, scanSectors, bind_assoc]
    congr 1
    funext ⟨s, returned⟩
    cases returned with
    | false => exact ih s
    | true => rfl

variable (sectorSize : fs.bytesPerSec = 512)
include sectorSize

theorem get_next_clus_eq (clus : Nat) :
    fs.getNextClusInFat disk clus = .ok (fs.nextClus disk clus) := by
  rw [FileSystem.getNextClusInFat, FileSystem.bio_cache_read_sector sectorSize, bind_ok,
    ByteMemory.load_shift fun x => (disk x).toBitVec]
  rfl

/-- The loop over the sectors of a cluster. -/
theorem scan_cluster_eq (clus count i : Nat) (s : Scan) :
    fs.scanCluster disk strict supply callback clus count i s =
      scanSectors strict supply callback s ((List.range' i count).map (fs.dirSector disk clus)) := by
  induction count generalizing i s with
  | zero => rfl
  | succ count ih =>
    rw [FileSystem.scanCluster, FileSystem.bio_cache_read_sector sectorSize, bind_ok,
      List.range'_succ, List.map_cons, scanSectors]
    simp only [ih]
    rfl

/-- The loop scans the sectors of its chain, and returns if the callback stops it or the chain
ends. -/
theorem loop_fat_dirent_eq (turns clus : Nat) (s : Scan) :
    fs.loopFatDirent disk strict supply callback turns clus s =
      scanSectors strict supply callback s
          ((fs.chain disk turns clus).flatMap (fs.clusterSectors disk)) >>= fun (s, returned) =>
          if returned ∨ fs.ChainEnds disk turns clus then .ok s else .error .unfinished := by
  induction turns generalizing clus s with
  | zero => rfl
  | succ turns ih =>
    rw [FileSystem.loopFatDirent, scan_cluster_eq sectorSize, FileSystem.chain,
      List.flatMap_cons, scan_sectors_append, bind_assoc, ← List.range_eq_range']
    congr 1
    funext ⟨s, returned⟩
    cases returned with
    | true => rfl
    | false =>
      simp only [Bool.false_eq_true, if_false, get_next_clus_eq sectorSize, bind_ok]
      by_cases last : FileSystem.IsEnd (fs.nextClus disk clus)
      · have ends : fs.ChainEnds disk (turns + 1) clus := .inl last
        rw [if_pos last, if_pos last]
        exact (if_pos (.inr ends)).symm
      · have ends : fs.ChainEnds disk (turns + 1) clus ↔
            fs.ChainEnds disk turns (fs.nextClus disk clus) := or_iff_right last
        rw [if_neg last, if_neg last, ih]
        simp only [ends]

end Chains

end Mftt.Fat
