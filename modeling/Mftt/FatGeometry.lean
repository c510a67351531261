import Mftt.FatReads

/-!
# Where a FAT32 volume has its clusters

The boot sector says how a volume is laid out: a reserved area, the file allocation tables, and
the clusters, the first of which has the number 2. `fat_read_superblock` checks the boot sector
and the information sector and keeps what the file system needs.

`CLUS2SECTOR` counts clusters from the one of the root directory. This is the layout of the
volume exactly when the root directory starts in the first cluster.
-/

namespace Mftt.Fat

open Slices

/-! ## The boot sector -/

/-- A little-endian field of a disk or of a buffer. -/
def field (bytes : Nat → UInt8) (place width : Nat) : Nat :=
  ByteMemory.load (fun x => (bytes x).toBitVec) place width

/-- The fields of `struct FAT32_BS` that mounting reads. -/
structure BootSector where
  bytesPerSec : Nat
  secPerClus : Nat
  rsvdSecCnt : Nat
  numFats : Nat
  rootEntCnt : Nat
  totSec16 : Nat
  fatSz16 : Nat
  totSec32 : Nat
  fatSz32 : Nat
  rootClus : Nat
  fsInfo : Nat
  bootSig : Nat
  deriving DecidableEq, Repr

/-- The packed layout of `struct FAT32_BS`. -/
def bootSector (sector : Nat → UInt8) : BootSector where
  bytesPerSec := field sector 11 2
  secPerClus := field sector 13 1
  rsvdSecCnt := field sector 14 2
  numFats := field sector 16 1
  rootEntCnt := field sector 17 2
  totSec16 := field sector 19 2
  fatSz16 := field sector 22 2
  totSec32 := field sector 32 4
  fatSz32 := field sector 36 4
  rootClus := field sector 44 4
  fsInfo := field sector 48 2
  bootSig := field sector 66 1

/-- What `fat_read_superblock` puts into `struct FAT32_FileSystem`. -/
def BootSector.fileSystem (b : BootSector) : FileSystem where
  bytesPerSec := b.bytesPerSec
  secPerClus := b.secPerClus
  fatStartSct := b.rsvdSecCnt
  rootClus := b.rootClus
  firstDataClus := (b.rsvdSecCnt + b.fatSz32 * b.numFats) % 2 ^ 32

/-- The assertions on the boot sector. -/
def BootSector.check (b : BootSector) : Except Fault Unit :=
  assert (b.bootSig = 0x29) "FAT BootSig invaild." >>= fun _ =>
  assert (b.totSec16 = 0) "FAT TotSec16 invalid" >>= fun _ =>
  assert (b.fatSz16 = 0) "FAT FATsz16 failed" >>= fun _ =>
  assert (b.rootEntCnt = 0) "FAT RootEntCnt failed" >>= fun _ =>
  assert (b.bytesPerSec = 512) "FAT BytesPerSec failed"

/-- The assertions on the information sector. -/
def checkInfo (info : Nat → UInt8) : Except Fault Unit :=
  assert (field info 0 4 = 0x41615252) "FAT LeadSig invalid" >>= fun _ =>
  assert (field info 484 4 = 0x61417272) "FAT StructSig invalid" >>= fun _ =>
  assert (field info 508 4 = 0xAA550000) "FAT Trail invalid"

/-- `fat_read_superblock`. -/
def fatReadSuperblock (disk : Nat → UInt8) : Except Fault FileSystem :=
  bioCacheRead disk 0 >>= fun sector =>
  (bootSector sector).check >>= fun _ =>
  bioCacheRead disk ((bootSector sector).fsInfo * (bootSector sector).bytesPerSec) >>= fun info =>
  checkInfo info >>= fun _ =>
    .ok (bootSector sector).fileSystem

/-- A disk that passes the assertions is mounted with the fields of its boot sector. -/
theorem superblock_eq_ok {disk : Nat → UInt8} {fs : FileSystem}
    (mounted : fatReadSuperblock disk = .ok fs) :
    fs = (bootSector disk).fileSystem ∧ (bootSector disk).bytesPerSec = 512 := by
  obtain ⟨sector, boot, mounted⟩ := bind_eq_ok.mp mounted
  obtain ⟨_, checked, mounted⟩ := bind_eq_ok.mp mounted
  obtain ⟨_, _, mounted⟩ := bind_eq_ok.mp mounted
  obtain ⟨_, _, mounted⟩ := bind_eq_ok.mp mounted
  obtain rfl : disk = sector := by
    rw [bioCacheRead, assert_true _ (by rfl), bind_ok] at boot
    simpa only [Nat.zero_add, Except.ok.injEq] using boot
  simp only [BootSector.check, bind_eq_ok, assert_eq_ok, exists_const] at checked
  exact ⟨(Except.ok.inj mounted).symm, checked.2.2.2.2⟩

/-! ## The layout of a volume -/

namespace BootSector

variable (b : BootSector)

/-- The first sector behind the file allocation tables. -/
def dataStart : Nat := b.rsvdSecCnt + b.numFats * b.fatSz32

/-- The clusters that the sectors of the volume have room for. -/
def clusterCount : Nat := (b.totSec32 - b.dataStart) / b.secPerClus

/-- The numbers of clusters start with 2. -/
def IsCluster (n : Nat) : Prop := 2 ≤ n ∧ n < b.clusterCount + 2

instance (n : Nat) : Decidable (b.IsCluster n) := inferInstanceAs (Decidable (_ ∧ _))

/-- A sector of a cluster. -/
def clusterSector (n i : Nat) : Nat := b.dataStart + (n - 2) * b.secPerClus + i

end BootSector

/-- A disk with a FAT32 volume that `fat_read_superblock` accepts. -/
structure FormattedDisk where
  disk : Nat → UInt8
  exponent : Nat
  accepted : ∃ fs, fatReadSuperblock disk = .ok fs
  secPerClus_eq : (bootSector disk).secPerClus = 2 ^ exponent
  exponent_le : exponent ≤ 7
  reserved_pos : 0 < (bootSector disk).rsvdSecCnt
  numFats_pos : 0 < (bootSector disk).numFats
  fits : (bootSector disk).dataStart ≤ (bootSector disk).totSec32
  addressable : (bootSector disk).clusterCount + 2 ≤ 0x0FFFFFF7
  covered : (bootSector disk).clusterCount + 2 ≤ 128 * (bootSector disk).fatSz32
  root : (bootSector disk).IsCluster (bootSector disk).rootClus

/-- The entry of a cluster in the first table. -/
def tableEntry (disk : Nat → UInt8) (n : Nat) : Nat :=
  field disk ((bootSector disk).rsvdSecCnt * 512 + 4 * n) 4 % 2 ^ 28

/-- `CLUS2SECTOR(fs, n) + i`. -/
def FileSystem.sectorOf (fs : FileSystem) (n i : Nat) : Nat := (fs.clus2Sector n + i) % 2 ^ 32

/-- The mounted file system finds clusters and table entries where FAT32 has them. -/
structure FollowsFat32 (disk : Nat → UInt8) (fs : FileSystem) : Prop where
  sectors : ∀ n, (bootSector disk).IsCluster n → ∀ i < (bootSector disk).secPerClus,
    fs.sectorOf n i = (bootSector disk).clusterSector n i
  disjoint : ∀ m n, (bootSector disk).IsCluster m → (bootSector disk).IsCluster n → m ≠ n →
    ∀ i < (bootSector disk).secPerClus, ∀ j < (bootSector disk).secPerClus,
      fs.sectorOf m i ≠ fs.sectorOf n j
  inside : ∀ n, (bootSector disk).IsCluster n → ∀ i < (bootSector disk).secPerClus,
    (bootSector disk).dataStart ≤ fs.sectorOf n i ∧ fs.sectorOf n i < (bootSector disk).totSec32
  entries : ∀ n, (bootSector disk).IsCluster n →
    fs.getNextClusInFat disk n = .ok (tableEntry disk n)

namespace FormattedDisk

variable (d : FormattedDisk)

/-- The boot sector. -/
abbrev boot : BootSector := bootSector d.disk

theorem secPerClus_pos : 0 < d.boot.secPerClus := by
  rw [d.secPerClus_eq]
  exact Nat.two_pow_pos _

/-- The clusters lie on the disk, and the numbers of its sectors are words. -/
theorem clusters_fit :
    d.boot.dataStart + d.boot.clusterCount * d.boot.secPerClus ≤ d.boot.totSec32 := by
  have whole : d.boot.clusterCount * d.boot.secPerClus ≤ d.boot.totSec32 - d.boot.dataStart :=
    Nat.div_mul_le_self _ _
  have fits := d.fits
  simp only [boot] at *
  omega

theorem totSec32_lt : d.boot.totSec32 < 2 ^ 32 :=
  ByteMemory.load_lt _ _ _

theorem mounted : fatReadSuperblock d.disk = .ok d.boot.fileSystem := by
  obtain ⟨fs, mounted⟩ := d.accepted
  rw [mounted, (superblock_eq_ok mounted).1]

theorem clusterSector_lt {n i : Nat} (cluster : d.boot.IsCluster n)
    (inside : i < d.boot.secPerClus) : d.boot.clusterSector n i < d.boot.totSec32 := by
  have scaled : (n - 2) * d.boot.secPerClus + d.boot.secPerClus ≤
      d.boot.clusterCount * d.boot.secPerClus := by
    rw [← Nat.succ_mul]
    exact Nat.mul_le_mul_right _ (by obtain ⟨low, high⟩ := cluster; omega)
  have fit := d.clusters_fit
  rw [BootSector.clusterSector]
  omega

theorem clusterSector_ne {m n i j : Nat} (first : d.boot.IsCluster m)
    (second : d.boot.IsCluster n) (distinct : m ≠ n) (inside : i < d.boot.secPerClus)
    (inside' : j < d.boot.secPerClus) : d.boot.clusterSector m i ≠ d.boot.clusterSector n j := by
  intro same
  simp only [BootSector.clusterSector, Nat.add_assoc, Nat.add_left_cancel_iff] at same
  have number := congrArg (· / d.boot.secPerClus) same
  simp only [Nat.mul_add_div d.secPerClus_pos, Nat.mul_comm _ d.boot.secPerClus,
    Nat.div_eq_of_lt inside, Nat.div_eq_of_lt inside'] at number
  have := first.1
  have := second.1
  omega

/-- The place of a cluster in the words of the mounted file system. -/
theorem sectorOf_mod (n i : Nat) :
    d.boot.fileSystem.sectorOf n i =
      (d.boot.dataStart + (n + 2 ^ 32 - d.boot.rootClus) % 2 ^ 32 * d.boot.secPerClus + i)
        % 2 ^ 32 := by
  rw [FileSystem.sectorOf, FileSystem.clus2Sector, Nat.mod_add_mod]
  dsimp only [BootSector.fileSystem]
  rw [Nat.add_assoc, Nat.mod_add_mod, ← Nat.add_assoc, BootSector.dataStart, Nat.mul_comm]

theorem sectorOf_eq (first : d.boot.rootClus = 2) {n i : Nat} (cluster : d.boot.IsCluster n)
    (inside : i < d.boot.secPerClus) :
    d.boot.fileSystem.sectorOf n i = d.boot.clusterSector n i := by
  have addressable := d.addressable
  obtain ⟨low, high⟩ := cluster
  have difference : (n + 2 ^ 32 - 2) % 2 ^ 32 = n - 2 := by
    simp only [boot] at *
    omega
  rw [sectorOf_mod, first, difference]
  exact Nat.mod_eq_of_lt ((d.clusterSector_lt ⟨low, high⟩ inside).trans d.totSec32_lt)

/-- Otherwise it does not find the first cluster. -/
theorem root_of_sectorOf (found : d.boot.fileSystem.sectorOf 2 0 = d.boot.clusterSector 2 0) :
    d.boot.rootClus = 2 := by
  by_contra other
  have below : 2 < d.boot.rootClus := Nat.lt_of_le_of_ne d.root.1 (Ne.symm other)
  have positive : 0 < (d.boot.rootClus - 2) * d.boot.secPerClus :=
    Nat.mul_pos (by omega) d.secPerClus_pos
  have room := (d.clusterSector_lt d.root d.secPerClus_pos).trans d.totSec32_lt
  have less : d.boot.rootClus - 2 < 2 ^ 32 := by
    have addressable : d.boot.clusterCount + 2 ≤ 0x0FFFFFF7 := d.addressable
    have high : d.boot.rootClus < d.boot.clusterCount + 2 := d.root.2
    omega
  have wraps : (2 + 2 ^ 32 - d.boot.rootClus) % 2 ^ 32 = 2 ^ 32 - (d.boot.rootClus - 2) := by omega
  have back : (2 ^ 32 - (d.boot.rootClus - 2)) * d.boot.secPerClus +
      (d.boot.rootClus - 2) * d.boot.secPerClus = 2 ^ 32 * d.boot.secPerClus := by
    rw [← Nat.add_mul, Nat.sub_add_cancel less.le]
  rw [sectorOf_mod, wraps] at found
  simp only [BootSector.clusterSector, boot] at *
  omega

/-- A table entry is found whatever the root directory is. -/
theorem entry_eq {n : Nat} (cluster : d.boot.IsCluster n) :
    d.boot.fileSystem.getNextClusInFat d.disk n = .ok (tableEntry d.disk n) := by
  obtain ⟨fs, mounted⟩ := d.accepted
  have reserved : d.boot.rsvdSecCnt < 2 ^ 16 := ByteMemory.load_lt _ _ _
  have addressable : d.boot.clusterCount + 2 ≤ 0x0FFFFFF7 := d.addressable
  exact FileSystem.get_next_entry (superblock_eq_ok mounted).2 (by
    have high := cluster.2
    dsimp only [BootSector.fileSystem]
    omega)

/-- The volume on the disk, if its root directory starts in the first cluster. -/
def volume (first : d.boot.rootClus = 2) : Volume where
  disk := d.disk
  exponent := d.exponent
  reserved := d.boot.rsvdSecCnt
  numFats := d.boot.numFats
  fatSize := d.boot.fatSz32
  clusters := d.boot.clusterCount
  rootClus := d.boot.rootClus
  root_first := first
  exponent_le := d.exponent_le
  reserved_lt := ByteMemory.load_lt _ _ _
  addressable := d.addressable
  covered := d.covered
  fits := by
    have fit := d.clusters_fit.trans_lt d.totSec32_lt
    rwa [boot, d.secPerClus_eq, BootSector.dataStart, Nat.mul_comm (bootSector d.disk).numFats]
      at fit

/-- Mounting a disk whose root directory starts in the first cluster gives the file system of its
volume. -/
theorem mounted_volume (first : d.boot.rootClus = 2) :
    fatReadSuperblock d.disk = .ok (d.volume first).fileSystem := by
  obtain ⟨fs, accepted⟩ := d.accepted
  have word : d.boot.rsvdSecCnt + d.boot.fatSz32 * d.boot.numFats < 2 ^ 32 :=
    (Nat.le_add_right _ _).trans_lt (d.volume first).fits
  rw [d.mounted, BootSector.fileSystem, (superblock_eq_ok accepted).2,
    d.secPerClus_eq, Nat.mod_eq_of_lt word]
  rfl

end FormattedDisk

/-- The file system of a volume follows FAT32 exactly if its root directory starts in the first
cluster. -/
theorem follows_fat32_iff (d : FormattedDisk) :
    (∃ fs, fatReadSuperblock d.disk = .ok fs ∧ FollowsFat32 d.disk fs) ↔
      (bootSector d.disk).rootClus = 2 := by
  constructor
  · rintro ⟨fs, mounted, follows⟩
    rw [d.mounted, Except.ok.injEq] at mounted
    subst mounted
    have first : d.boot.IsCluster 2 := ⟨le_rfl, by
      obtain ⟨low, high⟩ := d.root
      exact low.trans_lt high⟩
    exact d.root_of_sectorOf (follows.sectors 2 first 0 d.secPerClus_pos)
  · intro first
    refine ⟨d.boot.fileSystem, d.mounted, ?_, ?_, ?_, fun n cluster => d.entry_eq cluster⟩
    · exact fun n cluster i inside => d.sectorOf_eq first cluster inside
    · intro m n cluster cluster' distinct i inside j inside'
      rw [d.sectorOf_eq first cluster inside, d.sectorOf_eq first cluster' inside']
      exact d.clusterSector_ne cluster cluster' distinct inside inside'
    · intro n cluster i inside
      rw [d.sectorOf_eq first cluster inside]
      refine ⟨?_, d.clusterSector_lt cluster inside⟩
      rw [BootSector.clusterSector, Nat.add_assoc]
      exact Nat.le_add_right _ _

/-- A disk with 65525 clusters of one sector, with the start of the root directory and bytes for
the table, from the entry of cluster 2 on, and for the clusters. -/
def sampleDisk (rootClus : UInt8) (table clusters : List UInt8) : Nat → UInt8 :=
  [(11, [0, 2, 1, 32, 0, 2]), (32, [21, 4, 1, 0, 0, 2]), (44, [rootClus, 0, 0, 0, 1]), (66, [41]),
    (512, [82, 82, 97, 65]), (996, [114, 114, 65, 97]), (1022, [85, 170]), (16392, table),
    (540672, clusters)].foldl
    (fun disk (place, bytes) => overwrite disk place bytes) fun _ => 0

/-- A disk whose root directory starts in the second cluster. -/
def secondRootDisk : Nat → UInt8 := sampleDisk 3 [] []

theorem second_root_boot :
    bootSector secondRootDisk = ⟨512, 1, 32, 2, 0, 0, 0, 66581, 512, 3, 1, 41⟩ := by
  decide +kernel

theorem second_root_accepted :
    fatReadSuperblock secondRootDisk = .ok (bootSector secondRootDisk).fileSystem := by
  decide +kernel

def secondRoot : FormattedDisk where
  disk := secondRootDisk
  exponent := 0
  accepted := ⟨_, second_root_accepted⟩
  secPerClus_eq := by rw [second_root_boot]; rfl
  exponent_le := by decide
  reserved_pos := by rw [second_root_boot]; decide
  numFats_pos := by rw [second_root_boot]; decide
  fits := by rw [second_root_boot]; decide
  addressable := by rw [second_root_boot]; decide
  covered := by rw [second_root_boot]; decide
  root := by rw [second_root_boot]; decide

/-- There the macro puts the first cluster into the second file allocation table. -/
theorem second_root_in_table :
    ¬ ∃ fs, fatReadSuperblock secondRoot.disk = .ok fs ∧ FollowsFat32 secondRoot.disk fs := by
  rintro ⟨fs, mounted, follows⟩
  rw [secondRoot.mounted, Except.ok.injEq] at mounted
  subst mounted
  have found := follows.sectors 2
  exact absurd (found (by decide) 0 (by decide)) (by decide)

end Mftt.Fat
