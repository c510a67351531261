import Mathlib.Logic.Function.Iterate
import Mftt.FatNames

/-!
# Walks along the links of a table

`loop_fat_dirent` follows the links of the table from cluster to cluster until one is the end of a
chain, and `read` follows as many of them as the offset and the length take. Neither compares a
link with the number of clusters or entries, and neither counts its steps: only an end of a chain
stops the loop, and `read` does not know even that one.

Both are followed here with the entries and the sectors that they access. A walk ends and stays on
the volume exactly if the links from its start do, as far as it goes. A name that is written outside
its buffer does not end the loop over a directory.
-/

namespace Mftt.Fat

open FileSystem List

/-! ## Accesses -/

/-- An access to the entry of a cluster in the table, or to a sector of the disk. -/
inductive Access where
  | entry (clus : Nat)
  | sector (number : Nat)
  deriving DecidableEq

/-- The entry lies in the table, the sector in a cluster of the volume. -/
def Access.Exists (b : BootSector) : Access → Prop
  | .entry n => n < 128 * b.fatSz32
  | .sector number => ∃ n i, b.IsCluster n ∧ i < b.secPerClus ∧ number = b.clusterSector n i

/-- The clusters fill the sectors behind the tables. -/
theorem sector_exists_iff (b : BootSector) (number : Nat) :
    (Access.sector number).Exists b ↔ b.dataStart ≤ number ∧
      number < b.dataStart + b.clusterCount * b.secPerClus := by
  constructor
  · rintro ⟨n, i, ⟨low, high⟩, inside, rfl⟩
    have scaled : (n - 2 + 1) * b.secPerClus ≤ b.clusterCount * b.secPerClus :=
      Nat.mul_le_mul_right _ (by omega)
    rw [Nat.succ_mul] at scaled
    simp only [BootSector.clusterSector]
    omega
  · rintro ⟨low, high⟩
    have positive : 0 < b.secPerClus := by
      rcases Nat.eq_zero_or_pos b.secPerClus with none | positive
      · rw [none] at high
        omega
      · exact positive
    have division := Nat.div_add_mod' (number - b.dataStart) b.secPerClus
    refine ⟨(number - b.dataStart) / b.secPerClus + 2, (number - b.dataStart) % b.secPerClus,
      ⟨Nat.le_add_left _ _, Nat.add_lt_add_right ?_ 2⟩, Nat.mod_lt _ positive, ?_⟩
    · rw [Nat.div_lt_iff_lt_mul positive]
      omega
    · simp only [BootSector.clusterSector, Nat.add_sub_cancel]
      omega

instance (b : BootSector) : (a : Access) → Decidable (a.Exists b)
  | .entry n => inferInstanceAs (Decidable (n < 128 * b.fatSz32))
  | .sector number => decidable_of_iff' _ (sector_exists_iff b number)

namespace FileSystem

variable (fs : FileSystem) (disk : Nat → UInt8)

/-- The accesses to the sectors of a cluster from sector `i` on, as far as the loop goes. -/
def clusterAccesses (supply : Nat → Nat → Bool) (callback : DirEnt → List UInt8 → Bool)
    (clus : Nat) : Nat → Nat → Scan → List Access
  | 0, _, _ => []
  | count + 1, i, s =>
    .sector (fs.sectorOf clus i) ::
      match scanSector false supply callback s (fs.dirSector disk clus i) with
      | .ok (s, false) => clusterAccesses supply callback clus count (i + 1) s
      | _ => []

/-- The accesses of `loop_fat_dirent`: sectors of a cluster and, unless the loop ends there, the
entry of the cluster. -/
def loopAccesses (supply : Nat → Nat → Bool) (callback : DirEnt → List UInt8 → Bool) :
    Nat → Nat → Scan → List Access
  | 0, _, _ => []
  | turns + 1, dirClus, s =>
    fs.clusterAccesses disk supply callback dirClus fs.secPerClus 0 s ++
      match fs.scanCluster disk false supply callback dirClus fs.secPerClus 0 s with
      | .ok (s, false) =>
        .entry dirClus :: if IsEnd (fs.nextClus disk dirClus) then []
          else loopAccesses supply callback turns (fs.nextClus disk dirClus) s
      | _ => []

/-- The accesses of the walk to the cluster of the offset. -/
def walkAccesses (offset : Nat) : Nat → Nat → Nat → List Access
  | 0, _, _ => []
  | turns + 1, p, clus =>
    if p ≤ offset then
      .entry clus :: walkAccesses offset turns ((p + fs.bytesPerClus) % 2 ^ 32)
        (fs.nextClus disk clus)
    else []

/-- The access for the part of a sector at the offset, to the first sector of its cluster. -/
def headAccesses (c : Cursor) : List Access :=
  if c.pClus % 512 = 0 then [] else [.sector (fs.clus2Sector c.clus)]

/-- The access on the way to the cluster of the first whole sector. -/
def nextAccesses (c : Cursor) : List Access :=
  if c.pClus = fs.bytesPerClus then [.entry c.clus] else []

/-- The accesses of a whole sector and on the way to the next one. -/
def sectorAccesses (c : Cursor) : List Access :=
  .sector (fs.sectorOf c.clus (c.pClus / 512)) ::
    if fs.bytesPerClus ≤ c.pClus + 512 then [.entry c.clus] else []

/-- The accesses of the loop over whole sectors. -/
def sectorsAccesses : Nat → Cursor → List Access
  | 0, _ => []
  | turns + 1, c =>
    if 512 < c.rSize then
      fs.sectorAccesses c ++
        match fs.advance disk c.clus c.pClus with
        | .ok (clus, pClus) => sectorsAccesses turns ⟨clus, pClus, c.rSize - 512, []⟩
        | .error _ => []
    else []

/-- The access to the last sector. -/
def tailAccesses (c : Cursor) : List Access :=
  if c.rSize = 0 then [] else [.sector (fs.sectorOf c.clus (c.pClus / 512))]

/-- The accesses behind the first part: the next cluster, whole sectors and the last one. -/
def restAccesses (turns : Nat) (c : Cursor) : List Access :=
  fs.nextAccesses c ++
    match fs.nextCluster disk c with
    | .ok c =>
      fs.sectorsAccesses disk turns c ++
        match fs.copySectors disk turns c with
        | .ok c => fs.tailAccesses c
        | .error _ => []
    | .error _ => []

/-- The accesses of `read`. -/
def readAccesses (turns start size offset len : Nat) : List Access :=
  fs.walkAccesses disk offset turns fs.bytesPerClus start ++
    match fs.walk disk offset turns fs.bytesPerClus start with
    | .ok clus =>
      let c : Cursor := ⟨clus, offset % fs.bytesPerClus, clamp size offset len, []⟩
      fs.headAccesses c ++
        match fs.copyHead disk c with
        | .ok c => if c.rSize = 0 then [] else fs.restAccesses disk turns c
        | .error _ => []
    | .error _ => []

end FileSystem

/-! ## Walks -/

/-- A walk: the loop over a directory, or a read within the recorded size of a file. -/
inductive Walk where
  | directory (start : Nat)
  | file (start size offset len : Nat) (recorded : size < 2 ^ 32) (within : offset + len ≤ size)

/-- A walk ends, and all it accesses exists. The loop over a directory ends whatever its callback
and `kmalloc` do; a failed assertion is an end as well. -/
def Walk.Ends (fs : FileSystem) (disk : Nat → UInt8) : Walk → Prop
  | .directory start => ∀ supply callback, ∃ turns,
      fs.loopFatDirent disk false supply callback turns start ⟨none, []⟩ ≠ .error .unfinished ∧
      ∀ a ∈ fs.loopAccesses disk supply callback turns start ⟨none, []⟩, a.Exists (bootSector disk)
  | .file start size offset len _ _ => ∃ turns,
      fs.read disk turns start size offset len ≠ .error .unfinished ∧
      ∀ a ∈ fs.readAccesses disk turns start size offset len, a.Exists (bootSector disk)

/-! ## The condition -/

/-- What the entries leave of a long name, or none if one of them fails an assertion. -/
def pendingAfter : Pending → List DirEnt → Option Pending
  | pending, [] => some pending
  | pending, e :: rest =>
    match nameStep false pending e with
    | .go pending => pendingAfter pending rest
    | _ => none

section Conditions

variable (fs : FileSystem) (disk : Nat → UInt8)

/-- Sectors of a cluster exist, up to an entry that ends the loop. -/
def SectorsExist (clus : Nat) : Pending → List Nat → Prop
  | _, [] => True
  | pending, i :: rest =>
    (Access.sector (fs.sectorOf clus i)).Exists (bootSector disk) ∧
      ∀ left, pendingAfter pending (lookedAt [fs.dirSector disk clus i]) = some left →
        SectorsExist clus left rest

/-- The links from a cluster lead over sectors and entries that exist to the end of a chain, or to
an entry of a directory that ends the loop. -/
def DirectoryEnds : Nat → Pending → Nat → Prop
  | 0, _, _ => False
  | n + 1, pending, clus =>
    SectorsExist fs disk clus pending (List.range fs.secPerClus) ∧
      match pendingAfter pending (lookedAt (fs.clusterSectors disk clus)) with
      | none => True
      | some pending => (Access.entry clus).Exists (bootSector disk) ∧
          (FileSystem.IsEnd (fs.nextClus disk clus) ∨
            DirectoryEnds n pending (fs.nextClus disk clus))

/-- The cluster that some links lead to. -/
def link (start k : Nat) : Nat := (fs.nextClus disk)^[k] start

/-- The position of the walk, of 32 bits, first passes the offset after `n` links. -/
def Passes (offset n : Nat) : Prop :=
  (∀ k < n, (k + 1) * fs.bytesPerClus % 2 ^ 32 ≤ offset) ∧
    offset < (n + 1) * fs.bytesPerClus % 2 ^ 32

/-- A sector of the file along the links. -/
def fileSector (start q : Nat) : Access :=
  .sector (fs.sectorOf (link fs disk start (q / fs.secPerClus)) (q % fs.secPerClus))

/-- From sector `q` of the file on, the sectors up to a position exist, and from sector `first` on
the entries that lead from one cluster to the next. -/
structure Covered (start first q stop : Nat) : Prop where
  sectors : ∀ r, q ≤ r → 512 * r < stop → (fileSector fs disk start r).Exists (bootSector disk)
  entries : ∀ r, first ≤ r → 512 * (r + 1) < stop → (r + 1) % fs.secPerClus = 0 →
    (Access.entry (link fs disk start (r / fs.secPerClus))).Exists (bootSector disk)

/-- The walk to the offset ends, over entries that exist, and the sectors from there on exist as
far as the length. For a part of a sector the first sector of the cluster has to exist. -/
structure FileCovered (start offset len n : Nat) : Prop where
  passes : Passes fs offset n
  entries : ∀ k < n, (Access.entry (link fs disk start k)).Exists (bootSector disk)
  head : offset % 512 ≠ 0 →
    (Access.sector (fs.clus2Sector (link fs disk start n))).Exists (bootSector disk)
  rest : 0 < len → Covered fs disk start (n * fs.secPerClus + offset % fs.bytesPerClus / 512)
    (n * fs.secPerClus + (offset % fs.bytesPerClus + 511) / 512)
    (n * fs.bytesPerClus + offset % fs.bytesPerClus + len)

/-- The links of a walk stay on the volume as far as it goes. -/
def Walk.OnVolume : Walk → Prop
  | .directory start => ∃ n, DirectoryEnds fs disk n none start
  | .file start _ offset len _ _ => ∃ n, FileCovered fs disk start offset len n

end Conditions

/-! ## Directories -/

variable {clus n : Nat}

section Directories

variable {supply : Nat → Nat → Bool} {callback : DirEnt → List UInt8 → Bool} {s : Scan}
  {entries : List DirEnt}

theorem inside_lenient (s : Scan) : s.Inside false := fun _ _ strict => by cases strict

variable (supply callback) in
/-- A scan that goes on leaves what its entries leave, and no scan is unfinished. -/
theorem scan_pending (live : ∀ e ∈ entries, DirEnt.first e ≠ 0) :
    scanSector false supply callback s entries ≠ .error .unfinished ∧
      ∀ s', scanSector false supply callback s entries = .ok (s', false) →
        pendingAfter s.pending entries = some s'.pending := by
  induction entries generalizing s with
  | nil =>
    refine ⟨by simp [scanSector], ?_⟩
    rintro _ ⟨⟩
    rfl
  | cons e rest ih =>
    rw [scanSector, if_neg (live e mem_cons_self), pendingAfter]
    have follows : Follows false supply callback (scanEntry false supply callback s e)
        (nameStep false s.pending e) := scan_entry_follows (inside_lenient s)
    generalize scanEntry false supply callback s e = flow at follows
    generalize nameStep false s.pending e = step at follows
    cases follows with
    | overflow => simp
    | stop message => simp
    | next s inside => exact ih fun e member => live e (mem_cons_of_mem _ member)
    | refused message step unserved => simp
    | returned s step stops => simp

/-- If `kmalloc` serves every request and the callback never ends the loop, the scan goes on where
its entries let it. -/
theorem scan_goes_on (live : ∀ e ∈ entries, DirEnt.first e ≠ 0)
    {pending : Pending} (goes : pendingAfter s.pending entries = some pending) :
    ∃ s', scanSector false (fun _ _ => true) (fun _ _ => false) s entries = .ok (s', false) ∧
      s'.pending = pending := by
  induction entries generalizing s with
  | nil => exact ⟨s, rfl, Option.some.inj goes⟩
  | cons e rest ih =>
    rw [scanSector, if_neg (live e mem_cons_self)]
    rw [pendingAfter] at goes
    have follows : Follows false (fun _ _ => true) (fun _ _ => false)
        (scanEntry false (fun _ _ => true) (fun _ _ => false) s e) (nameStep false s.pending e) :=
      scan_entry_follows (inside_lenient s)
    generalize scanEntry false (fun _ _ => true) (fun _ _ => false) s e = flow at follows
    generalize nameStep false s.pending e = step at follows goes
    cases follows with
    | overflow => simp at goes
    | stop message => simp at goes
    | next s inside => exact ih (fun e member => live e (mem_cons_of_mem _ member)) goes
    | refused message step unserved => exact absurd unserved (by decide)
    | returned s step stops => exact absurd stops (by decide)

variable {fs : FileSystem} {disk : Nat → UInt8}

/-- The loop over a sector looks at the entries that `lookedAt` gives. -/
theorem scan_one_sector (s : Scan) (sector : List DirEnt) :
    scanSector false supply callback s sector =
      scanSector false supply callback s (lookedAt [sector]) := by
  rw [scan_sector_looked, lookedAt, flatMap_singleton]

/-- The sectors of a cluster that the loop reads exist. -/
theorem cluster_accesses_exist {count i : Nat}
    (exist : SectorsExist fs disk clus s.pending (List.range' i count)) :
    ∀ a ∈ fs.clusterAccesses disk supply callback clus count i s, a.Exists (bootSector disk) := by
  induction count generalizing i s with
  | zero => simp [clusterAccesses]
  | succ count ih =>
    rw [List.range'_succ] at exist
    rw [clusterAccesses, forall_mem_cons]
    refine ⟨exist.1, ?_⟩
    have left := (scan_pending supply callback (s := s)
      (looked_at_live [fs.dirSector disk clus i])).2
    rw [← scan_one_sector] at left
    split
    · rename_i s' scan
      exact ih (exist.2 _ (left s' scan))
    · simp

/-- If `kmalloc` serves every request and the callback never ends the loop, it reads all sectors
that have to exist. -/
theorem sectors_exist_of_accesses {count i : Nat}
    (accesses : ∀ a ∈ fs.clusterAccesses disk (fun _ _ => true) (fun _ _ => false) clus count i s,
      a.Exists (bootSector disk)) :
    SectorsExist fs disk clus s.pending (List.range' i count) := by
  induction count generalizing i s with
  | zero => trivial
  | succ count ih =>
    rw [clusterAccesses, forall_mem_cons] at accesses
    rw [List.range'_succ]
    refine ⟨accesses.1, fun left goes => ?_⟩
    obtain ⟨s', scan, rfl⟩ := scan_goes_on (looked_at_live _) goes
    rw [← scan_one_sector] at scan
    rw [scan] at accesses
    exact ih accesses.2

variable (sectorSize : fs.bytesPerSec = 512)
include sectorSize

theorem scan_cluster_looked (clus : Nat) (s : Scan) :
    fs.scanCluster disk false supply callback clus fs.secPerClus 0 s =
      scanSector false supply callback s (lookedAt (fs.clusterSectors disk clus)) := by
  rw [scan_cluster_eq sectorSize, scan_sectors_eq, clusterSectors, range_eq_range']

/-- A turn of the loop that goes on reads the entry of its cluster. -/
theorem loop_turn {s' : Scan}
    (scan : scanSector false supply callback s (lookedAt (fs.clusterSectors disk clus)) =
      .ok (s', false)) (n : Nat) :
    fs.loopFatDirent disk false supply callback (n + 1) clus s =
        (if FileSystem.IsEnd (fs.nextClus disk clus) then .ok s'
          else fs.loopFatDirent disk false supply callback n (fs.nextClus disk clus) s') ∧
      fs.loopAccesses disk supply callback (n + 1) clus s =
        fs.clusterAccesses disk supply callback clus fs.secPerClus 0 s ++ .entry clus ::
          if FileSystem.IsEnd (fs.nextClus disk clus) then []
          else fs.loopAccesses disk supply callback n (fs.nextClus disk clus) s' := by
  rw [loopFatDirent, loopAccesses, scan_cluster_looked sectorSize, scan]
  dsimp only
  rw [get_next_clus_eq sectorSize]
  exact ⟨rfl, rfl⟩

theorem loop_of_directory_ends (ends : DirectoryEnds fs disk n s.pending clus) :
    fs.loopFatDirent disk false supply callback n clus s ≠ .error .unfinished ∧
      ∀ a ∈ fs.loopAccesses disk supply callback n clus s, a.Exists (bootSector disk) := by
  induction n generalizing clus s with
  | zero => exact absurd ends id
  | succ n ih =>
    obtain ⟨exist, ends⟩ := ends
    rw [range_eq_range'] at exist
    have sectors : ∀ a ∈ fs.clusterAccesses disk supply callback clus fs.secPerClus 0 s,
        a.Exists (bootSector disk) := cluster_accesses_exist exist
    obtain ⟨finished, goesOn⟩ := scan_pending supply callback (s := s)
      (looked_at_live (fs.clusterSectors disk clus))
    cases scan : scanSector false supply callback s (lookedAt (fs.clusterSectors disk clus)) with
    | error fault =>
      rw [loopFatDirent, loopAccesses, scan_cluster_looked sectorSize, scan]
      rw [scan] at finished
      exact ⟨by simpa using finished, by simpa using sectors⟩
    | ok value =>
      obtain ⟨s', returned⟩ := value
      cases returned with
      | true =>
        rw [loopFatDirent, loopAccesses, scan_cluster_looked sectorSize, scan]
        exact ⟨by simp, by simpa using sectors⟩
      | false =>
        rw [goesOn s' scan] at ends
        obtain ⟨entry, goes⟩ := ends
        obtain ⟨loop, accesses⟩ := loop_turn sectorSize scan n
        rw [loop, accesses, forall_mem_append, forall_mem_cons]
        by_cases last : FileSystem.IsEnd (fs.nextClus disk clus)
        · rw [if_pos last, if_pos last]
          exact ⟨by simp, sectors, entry, by simp⟩
        · rw [if_neg last, if_neg last]
          obtain ⟨ended, others⟩ := ih (goes.resolve_left last)
          exact ⟨ended, sectors, entry, others⟩

theorem directory_ends_of_loop
    (ended : fs.loopFatDirent disk false (fun _ _ => true) (fun _ _ => false) n clus s ≠
      .error .unfinished)
    (accesses : ∀ a ∈ fs.loopAccesses disk (fun _ _ => true) (fun _ _ => false) n clus s,
      a.Exists (bootSector disk)) :
    DirectoryEnds fs disk n s.pending clus := by
  induction n generalizing clus s with
  | zero => exact absurd rfl ended
  | succ n ih =>
    constructor
    · rw [range_eq_range']
      exact sectors_exist_of_accesses fun a member => accesses a (mem_append_left _ member)
    cases left : pendingAfter s.pending (lookedAt (fs.clusterSectors disk clus)) with
    | none => trivial
    | some pending =>
      obtain ⟨s', scan, rfl⟩ := scan_goes_on (looked_at_live (fs.clusterSectors disk clus)) left
      obtain ⟨loop, trace⟩ := loop_turn sectorSize scan n
      rw [loop] at ended
      rw [trace, forall_mem_append, forall_mem_cons] at accesses
      refine ⟨accesses.2.1, ?_⟩
      by_cases last : FileSystem.IsEnd (fs.nextClus disk clus)
      · exact .inl last
      · rw [if_neg last] at ended accesses
        exact .inr (ih ended accesses.2.2)

/-- The loop over a directory ends and stays on the volume exactly if its links do. -/
theorem directory_ends_iff (start : Nat) :
    (Walk.directory start).Ends fs disk ↔ (Walk.directory start).OnVolume fs disk := by
  constructor
  · intro ends
    obtain ⟨turns, ended, accesses⟩ := ends (fun _ _ => true) (fun _ _ => false)
    exact ⟨turns, directory_ends_of_loop sectorSize (s := ⟨none, []⟩) ended accesses⟩
  · rintro ⟨n, ends⟩ supply callback
    exact ⟨n, loop_of_directory_ends sectorSize (s := ⟨none, []⟩) ends⟩

end Directories

/-! ## Files -/

section Files

variable {fs : FileSystem} {disk : Nat → UInt8} {start : Nat}

theorem link_succ (k : Nat) :
    link fs disk start (k + 1) = fs.nextClus disk (link fs disk start k) :=
  Function.iterate_succ_apply' _ _ _

theorem first_position (fs : FileSystem) :
    (0 + 1) * fs.bytesPerClus % 2 ^ 32 = fs.bytesPerClus := by
  rw [Nat.one_mul, bytesPerClus, Nat.mod_mod]

theorem position_succ (j : Nat) :
    ((j + 1) * fs.bytesPerClus % 2 ^ 32 + fs.bytesPerClus) % 2 ^ 32 =
      (j + 1 + 1) * fs.bytesPerClus % 2 ^ 32 := by
  rw [Nat.mod_add_mod, ← Nat.succ_mul]

variable {offset turns : Nat}

theorem Passes.positive (passes : Passes fs offset n) : 0 < fs.bytesPerClus := by
  rcases Nat.eq_zero_or_pos fs.bytesPerClus with none | positive
  · have past := passes.2
    rw [none] at past
    omega
  · exact positive

/-- Where the position passes the offset, the walk ends, after an access to each entry on the
way. -/
theorem walk_passes (sectorSize : fs.bytesPerSec = 512) {j : Nat} (passes : Passes fs offset n)
    (before : j ≤ n) (enough : n < j + turns) :
    fs.walk disk offset turns ((j + 1) * fs.bytesPerClus % 2 ^ 32) (link fs disk start j) =
        .ok (link fs disk start n) ∧
      fs.walkAccesses disk offset turns ((j + 1) * fs.bytesPerClus % 2 ^ 32)
        (link fs disk start j) =
        (List.range' j (n - j)).map fun k => .entry (link fs disk start k) := by
  induction turns generalizing j with
  | zero => omega
  | succ turns ih =>
    rw [walk, walkAccesses]
    by_cases there : j = n
    · subst there
      have past : ¬ (j + 1) * fs.bytesPerClus % 2 ^ 32 ≤ offset := Nat.not_le.mpr passes.2
      rw [if_neg past, if_neg past, Nat.sub_self]
      exact ⟨rfl, rfl⟩
    · have reached := passes.1 j (by omega)
      obtain ⟨walks, trace⟩ := ih (j := j + 1) (by omega) (by omega)
      have count : n - j = n - (j + 1) + 1 := by omega
      rw [if_pos reached, if_pos reached, get_next_clus_eq sectorSize, bind_ok, position_succ,
        ← link_succ, walks, trace, count]
      exact ⟨rfl, rfl⟩

variable (disk start) in
theorem walk_from_start (sectorSize : fs.bytesPerSec = 512) (passes : Passes fs offset n)
    (enough : n < turns) :
    fs.walk disk offset turns fs.bytesPerClus start = .ok (link fs disk start n) ∧
      fs.walkAccesses disk offset turns fs.bytesPerClus start =
        (List.range n).map fun k => .entry (link fs disk start k) := by
  have walks : fs.walk disk offset turns ((0 + 1) * fs.bytesPerClus % 2 ^ 32)
      (link fs disk start 0) = .ok (link fs disk start n) ∧ _ :=
    walk_passes sectorSize passes (Nat.zero_le n) (by omega)
  rwa [first_position, ← range_eq_range'] at walks

theorem passes_of_walk (sectorSize : fs.bytesPerSec = 512) {j : Nat}
    (reached : ∀ k < j, (k + 1) * fs.bytesPerClus % 2 ^ 32 ≤ offset)
    (ended : fs.walk disk offset turns ((j + 1) * fs.bytesPerClus % 2 ^ 32) (link fs disk start j) ≠
      .error .unfinished) : ∃ n, n < j + turns ∧ Passes fs offset n := by
  induction turns generalizing j with
  | zero => exact absurd rfl ended
  | succ turns ih =>
    rw [walk] at ended
    by_cases more : (j + 1) * fs.bytesPerClus % 2 ^ 32 ≤ offset
    · rw [if_pos more, get_next_clus_eq sectorSize, position_succ, ← link_succ] at ended
      have all : ∀ k < j + 1, (k + 1) * fs.bytesPerClus % 2 ^ 32 ≤ offset := by
        intro k less
        rcases Nat.lt_succ_iff_lt_or_eq.mp less with less | rfl
        · exact reached k less
        · exact more
      obtain ⟨n, bound, passes⟩ := ih all ended
      exact ⟨n, by omega, passes⟩
    · exact ⟨j, by omega, reached, Nat.not_le.mp more⟩

theorem covered_sector (q stop : Nat) :
    Covered fs disk start q q stop ↔
      (512 * q < stop → (fileSector fs disk start q).Exists (bootSector disk)) ∧
      Covered fs disk start q (q + 1) stop := by
  constructor
  · rintro ⟨sectors, entries⟩
    exact ⟨sectors q le_rfl, fun r above => sectors r (by omega), entries⟩
  · rintro ⟨here, sectors, entries⟩
    refine ⟨fun r above inside => ?_, entries⟩
    rcases Nat.eq_or_lt_of_le above with rfl | above
    · exact here inside
    · exact sectors r above inside

theorem covered_entry (q stop : Nat) :
    Covered fs disk start q (q + 1) stop ↔
      (512 * (q + 1) < stop → (q + 1) % fs.secPerClus = 0 →
        (Access.entry (link fs disk start (q / fs.secPerClus))).Exists (bootSector disk)) ∧
      Covered fs disk start (q + 1) (q + 1) stop := by
  constructor
  · rintro ⟨sectors, entries⟩
    exact ⟨entries q le_rfl, sectors, fun r above => entries r (by omega)⟩
  · rintro ⟨here, sectors, entries⟩
    refine ⟨sectors, fun r above inside => ?_⟩
    rcases Nat.eq_or_lt_of_le above with rfl | above
    · exact here inside
    · exact entries r above inside

/-- Nothing is left to cover behind the position. -/
theorem covered_of_le {q stop : Nat} (behind : stop ≤ 512 * (q + 1)) :
    Covered fs disk start q (q + 1) stop := by
  constructor
  · intro r above inside
    omega
  · intro r above inside
    omega

/-- A sector of a cluster along the links. -/
theorem sector_place {n i size : Nat} (less : i < size) :
    (n * size + i) / size = n ∧ (n * size + i) % size = i := by
  have positive : 0 < size := by omega
  constructor
  · rw [Nat.mul_comm, Nat.mul_add_div positive, Nat.div_eq_of_lt less, Nat.add_zero]
  · rw [Nat.mul_comm, Nat.mul_add_mod, Nat.mod_eq_of_lt less]

theorem last_sector_iff {n i size : Nat} (less : i < size) :
    (n * size + i + 1) % size = 0 ↔ i + 1 = size := by
  by_cases last : i + 1 = size
  · rw [Nat.add_assoc, last, ← Nat.succ_mul, Nat.mul_mod_left]
    exact iff_of_true rfl rfl
  · rw [Nat.add_assoc, (sector_place (by omega)).2]
    exact iff_of_false (by omega) last

/-- A cursor on a sector of the file, with bytes to copy up to a position. -/
structure OnSector (fs : FileSystem) (disk : Nat → UInt8) (start q stop : Nat) (c : Cursor) :
    Prop where
  clus : c.clus = link fs disk start (q / fs.secPerClus)
  place : c.pClus = 512 * (q % fs.secPerClus)
  more : 0 < c.rSize
  stop_eq : 512 * q + c.rSize = stop

variable {q stop : Nat} {c c' : Cursor}

theorem OnSector.sector_eq (place : OnSector fs disk start q stop c) :
    .sector (fs.sectorOf c.clus (c.pClus / 512)) = fileSector fs disk start q := by
  rw [place.clus, place.place, Nat.mul_div_cancel_left _ (by decide), fileSector]

theorem sectors_accesses_copied (turns clus pClus rSize : Nat) (copied : List UInt8) :
    fs.sectorsAccesses disk turns ⟨clus, pClus, rSize, []⟩ =
      fs.sectorsAccesses disk turns ⟨clus, pClus, rSize, copied⟩ := by
  cases turns <;> rfl

section

variable (sectorSize : fs.bytesPerSec = 512)
include sectorSize

/-- The loop over whole sectors returns unless it has too few turns. -/
theorem copy_sectors_finishes (ended : fs.copySectors disk turns c ≠ .error .unfinished) :
    ∃ c', fs.copySectors disk turns c = .ok c' := by
  induction turns generalizing c with
  | zero => exact absurd rfl ended
  | succ turns ih =>
    rw [copySectors] at ended ⊢
    by_cases many : 512 < c.rSize
    · rw [if_pos many, copy_sector_eq sectorSize le_rfl] at ended ⊢
      have advances : ∃ clus pClus, fs.advance disk c.clus c.pClus = .ok (clus, pClus) := by
        rw [advance]
        split
        · exact ⟨_, _, by rw [get_next_clus_eq sectorSize, bind_ok]⟩
        · exact ⟨_, _, rfl⟩
      obtain ⟨clus, pClus, advances⟩ := advances
      rw [advances] at ended ⊢
      exact ih ended
    · rw [if_neg many]
      exact ⟨c, rfl⟩

section

variable (clusterSize : fs.bytesPerClus = 512 * fs.secPerClus) (positive : 0 < fs.secPerClus)
include clusterSize positive

/-- The sector behind a whole one: in the same cluster, or in the next one. -/
theorem advance_on_sector (place : OnSector fs disk start q stop c) (many : 512 < c.rSize)
    (copied : List UInt8) :
    (fs.bytesPerClus ≤ c.pClus + 512 ↔ (q + 1) % fs.secPerClus = 0) ∧
    ∃ clus pClus, fs.advance disk c.clus c.pClus = .ok (clus, pClus) ∧
      OnSector fs disk start (q + 1) stop ⟨clus, pClus, c.rSize - 512, copied⟩ := by
  obtain ⟨clus, place, more, stop_eq⟩ := place
  have stop_eq' : 512 * (q + 1) + (c.rSize - 512) = stop := by omega
  have split := Nat.div_add_mod' q fs.secPerClus
  have less := Nat.mod_lt q positive
  have crossing : fs.bytesPerClus ≤ c.pClus + 512 ↔ q % fs.secPerClus + 1 = fs.secPerClus := by
    omega
  rw [advance, if_congr crossing rfl rfl, crossing]
  by_cases last : q % fs.secPerClus + 1 = fs.secPerClus
  · have next : q + 1 = (q / fs.secPerClus + 1) * fs.secPerClus + 0 := by
      rw [Nat.succ_mul]
      omega
    obtain ⟨quotient, remainder⟩ : (q + 1) / fs.secPerClus = q / fs.secPerClus + 1 ∧
        (q + 1) % fs.secPerClus = 0 := by
      have there := sector_place positive (n := q / fs.secPerClus + 1)
      rwa [← next] at there
    refine ⟨iff_of_true last remainder, link fs disk start (q / fs.secPerClus + 1), 0, ?_, ?_⟩
    · rw [if_pos last, get_next_clus_eq sectorSize, bind_ok, clus, link_succ]
    · refine ⟨by rw [quotient], by rw [remainder], ?_, stop_eq'⟩
      dsimp only
      omega
  · have next : q + 1 = q / fs.secPerClus * fs.secPerClus + (q % fs.secPerClus + 1) := by omega
    obtain ⟨quotient, remainder⟩ : (q + 1) / fs.secPerClus = q / fs.secPerClus ∧
        (q + 1) % fs.secPerClus = q % fs.secPerClus + 1 := by
      have there := sector_place (by omega : q % fs.secPerClus + 1 < fs.secPerClus)
        (n := q / fs.secPerClus)
      rwa [← next] at there
    refine ⟨iff_of_false last (by omega), c.clus, c.pClus + 512, ?_, ?_⟩
    · rw [if_neg last]
    · refine ⟨by rw [quotient, clus], ?_, ?_, stop_eq'⟩
      · rw [remainder, place]
        rfl
      · dsimp only
        omega

/-- Whole sectors and the last one: the accesses exist exactly if the sectors are covered. -/
theorem sectors_covered (place : OnSector fs disk start q stop c)
    (copies : fs.copySectors disk turns c = .ok c') :
    (∀ a ∈ fs.sectorsAccesses disk turns c ++ fs.tailAccesses c', a.Exists (bootSector disk)) ↔
      Covered fs disk start q q stop := by
  induction turns generalizing c q with
  | zero => simp [copySectors] at copies
  | succ turns ih =>
    have here : 512 * q < stop := by
      have := place.more
      have := place.stop_eq
      omega
    rw [copySectors] at copies
    rw [sectorsAccesses, covered_sector]
    by_cases many : 512 < c.rSize
    · rw [if_pos many] at copies ⊢
      rw [copy_sector_eq sectorSize le_rfl, bind_ok] at copies
      generalize c.copied ++ Slices.slice disk _ 512 = copied at copies
      obtain ⟨crossing, clus', pClus', advances, place'⟩ :=
        advance_on_sector sectorSize clusterSize positive place many copied
      have beyond : 512 * (q + 1) < stop := by
        have := place.stop_eq
        omega
      rw [advances] at copies
      rw [advances]
      dsimp only
      rw [sectorAccesses, append_assoc, cons_append, forall_mem_cons,
        sectors_accesses_copied turns clus' pClus' (c.rSize - 512) copied, place.sector_eq,
        place.clus, covered_entry, forall_mem_append, ih place' copies,
        if_congr crossing rfl rfl]
      simp only [here, beyond, forall_const]
      refine and_congr_right fun _ => and_congr_left fun _ => ?_
      split <;> simp_all
    · rw [if_neg many] at copies ⊢
      cases copies
      have last : stop ≤ 512 * (q + 1) := by
        have := place.stop_eq
        omega
      rw [tailAccesses, if_neg place.more.ne', place.sector_eq]
      simp [here, covered_of_le last]

variable {i : Nat}

/-- Behind the first part the cursor is on a sector, or at the end of its cluster, whose entry then
leads to the next one. -/
theorem next_on_sector (clus : c.clus = link fs disk start n) (place : c.pClus = 512 * i)
    (inside : i ≤ fs.secPerClus) (more : 0 < c.rSize)
    (stop_eq : 512 * (n * fs.secPerClus + i) + c.rSize = stop) :
    ∃ c₁, fs.nextCluster disk c = .ok c₁ ∧
      OnSector fs disk start (n * fs.secPerClus + i) stop c₁ ∧
      ((∀ a ∈ fs.nextAccesses c, a.Exists (bootSector disk)) ↔ (i = fs.secPerClus →
        (Access.entry (link fs disk start n)).Exists (bootSector disk))) := by
  rw [nextAccesses, nextCluster]
  have full : c.pClus = fs.bytesPerClus ↔ i = fs.secPerClus := by omega
  by_cases last : i = fs.secPerClus
  · have next : n * fs.secPerClus + i = (n + 1) * fs.secPerClus + 0 := by
      rw [Nat.succ_mul, last, Nat.add_zero]
    obtain ⟨quotient, remainder⟩ := sector_place positive (n := n + 1)
    rw [if_pos (full.mpr last), if_pos (full.mpr last), get_next_clus_eq sectorSize, clus]
    refine ⟨_, rfl, ⟨?_, ?_, more, stop_eq⟩, by simp [last]⟩
    · rw [next, quotient, link_succ]
    · rw [next, remainder]
  · obtain ⟨quotient, remainder⟩ := sector_place (by omega : i < fs.secPerClus) (n := n)
    rw [if_neg (full.not.mpr last), if_neg (full.not.mpr last), if_neg (by omega)]
    exact ⟨c, rfl, ⟨by rw [quotient, clus], by rw [remainder, place], more, stop_eq⟩,
      by simp [last]⟩

/-- Copying on from the first part accesses just what has to be covered. -/
theorem rest_covered (clus : c.clus = link fs disk start n) (place : c.pClus = 512 * i)
    (inside : i ≤ fs.secPerClus) (more : 0 < c.rSize)
    (stop_eq : 512 * (n * fs.secPerClus + i) + c.rSize = stop)
    (ended : fs.nextCluster disk c >>= fs.copySectors disk turns ≠ .error .unfinished) :
    (∀ a ∈ fs.restAccesses disk turns c, a.Exists (bootSector disk)) ↔
      (i = fs.secPerClus → (Access.entry (link fs disk start n)).Exists (bootSector disk)) ∧
      Covered fs disk start (n * fs.secPerClus + i) (n * fs.secPerClus + i) stop := by
  obtain ⟨c₁, enters, place₁, entry⟩ :=
    next_on_sector sectorSize clusterSize positive clus place inside more stop_eq
  rw [enters] at ended
  obtain ⟨c₂, copies⟩ := copy_sectors_finishes sectorSize ended
  rw [restAccesses, enters]
  dsimp only
  rw [copies]
  rw [forall_mem_append, sectors_covered sectorSize clusterSize positive place₁ copies, entry]

/-- What is accessed from the cluster of the offset on. -/
theorem body_covered {len : Nat}
    (ended : fs.copyHead disk ⟨link fs disk start n, offset % fs.bytesPerClus, len, []⟩ >>=
      (fun c => if c.rSize = 0 then .ok c else fs.nextCluster disk c >>= fs.copySectors disk turns) ≠
        .error .unfinished) :
    (∀ a ∈ fs.headAccesses ⟨link fs disk start n, offset % fs.bytesPerClus, len, []⟩ ++
      match fs.copyHead disk ⟨link fs disk start n, offset % fs.bytesPerClus, len, []⟩ with
      | .ok c => if c.rSize = 0 then [] else fs.restAccesses disk turns c
      | .error _ => [], a.Exists (bootSector disk)) ↔
    (offset % 512 ≠ 0 →
        (Access.sector (fs.clus2Sector (link fs disk start n))).Exists (bootSector disk)) ∧
      (0 < len → Covered fs disk start (n * fs.secPerClus + offset % fs.bytesPerClus / 512)
        (n * fs.secPerClus + (offset % fs.bytesPerClus + 511) / 512)
        (n * fs.bytesPerClus + offset % fs.bytesPerClus + len)) := by
  have scaled : n * fs.bytesPerClus = 512 * (n * fs.secPerClus) := by
    rw [clusterSize, Nat.mul_left_comm]
  have inside : offset % fs.bytesPerClus < fs.bytesPerClus := Nat.mod_lt _ (by omega)
  have sector : offset % fs.bytesPerClus % 512 = offset % 512 :=
    Nat.mod_mod_of_dvd _ ⟨_, clusterSize⟩
  rw [headAccesses]
  by_cases aligned : offset % fs.bytesPerClus % 512 = 0
  · have head : fs.copyHead disk ⟨link fs disk start n, offset % fs.bytesPerClus, len, []⟩ =
        .ok ⟨link fs disk start n, offset % fs.bytesPerClus, len, []⟩ := by
      rw [copyHead, if_pos aligned]
    have same : (offset % fs.bytesPerClus + 511) / 512 = offset % fs.bytesPerClus / 512 := by omega
    rw [head, bind_ok] at ended
    rw [head, if_pos aligned, nil_append, ← sector, same]
    dsimp only at ended ⊢
    by_cases none : len = 0
    · simp [aligned, none]
    · rw [if_neg none] at ended ⊢
      have stop_eq : 512 * (n * fs.secPerClus + offset % fs.bytesPerClus / 512) + len =
          n * fs.bytesPerClus + offset % fs.bytesPerClus + len := by omega
      rw [rest_covered sectorSize clusterSize positive rfl (by dsimp only; omega) (by omega)
        (Nat.pos_of_ne_zero none) stop_eq ended]
      have short : offset % fs.bytesPerClus / 512 ≠ fs.secPerClus := by omega
      simp [aligned, short, Nat.pos_of_ne_zero none]
  · have head := @FileSystem.copy_head_eq fs disk sectorSize
      ⟨link fs disk start n, offset % fs.bytesPerClus, len, []⟩ aligned
    have next : (offset % fs.bytesPerClus + 511) / 512 = offset % fs.bytesPerClus / 512 + 1 := by
      omega
    rw [head, bind_ok] at ended
    rw [head, if_neg aligned, singleton_append, forall_mem_cons, ← sector, next,
      ← Nat.add_assoc]
    dsimp only at ended ⊢
    rw [forall_prop_of_true aligned]
    refine and_congr_right fun _ => ?_
    by_cases done : len - min (512 - offset % fs.bytesPerClus % 512) len = 0
    · rw [if_pos done]
      simp [covered_of_le (by omega : n * fs.bytesPerClus + offset % fs.bytesPerClus + len ≤
        512 * (n * fs.secPerClus + offset % fs.bytesPerClus / 512 + 1))]
    · rw [if_neg done] at ended ⊢
      have stop_eq : 512 * (n * fs.secPerClus + (offset % fs.bytesPerClus / 512 + 1)) +
          (len - min (512 - offset % fs.bytesPerClus % 512) len) =
          n * fs.bytesPerClus + offset % fs.bytesPerClus + len := by omega
      have short : offset % fs.bytesPerClus / 512 < fs.secPerClus := by omega
      rw [rest_covered sectorSize clusterSize positive rfl (by dsimp only; omega) (by omega)
        (Nat.pos_of_ne_zero done) stop_eq ended, covered_entry, (sector_place short).1,
        last_sector_iff short, ← Nat.add_assoc]
      have some : 0 < len := by omega
      have beyond : 512 * (n * fs.secPerClus + offset % fs.bytesPerClus / 512 + 1) <
          n * fs.bytesPerClus + offset % fs.bytesPerClus + len := by omega
      simp only [some, beyond, forall_const]

end

theorem read_covered (clusterSize : fs.bytesPerClus = 512 * fs.secPerClus) {size len : Nat}
    (passes : Passes fs offset n) (enough : n < turns)
    (clamped : clamp size offset len = len)
    (ended : fs.read disk turns start size offset len ≠ .error .unfinished) :
    (∀ a ∈ fs.readAccesses disk turns start size offset len, a.Exists (bootSector disk)) ↔
      FileCovered fs disk start offset len n := by
  have positive : 0 < fs.secPerClus := by
    have := passes.positive
    omega
  obtain ⟨walks, trace⟩ := walk_from_start disk start sectorSize passes enough
  rw [FileSystem.read, walks, bind_ok, clamped] at ended
  rw [readAccesses, walks, trace, clamped, forall_mem_append]
  rw [body_covered sectorSize clusterSize positive]
  · constructor
    · rintro ⟨entries, first, rest⟩
      exact ⟨passes, fun k less => entries _ (mem_map_of_mem (mem_range.mpr less)), first,
        rest⟩
    · rintro ⟨-, entries, first, rest⟩
      refine ⟨?_, first, rest⟩
      intro a member
      obtain ⟨k, less, rfl⟩ := mem_map.mp member
      exact entries k (mem_range.mp less)
  · intro unfinished
    refine ended ?_
    cases head : fs.copyHead disk ⟨link fs disk start n, offset % fs.bytesPerClus, len, []⟩ with
    | error fault =>
      rw [head] at unfinished
      exact congrArg Except.error (Except.error.inj unfinished)
    | ok c =>
      rw [head, bind_ok] at unfinished
      rw [bind_ok]
      by_cases none : c.rSize = 0
      · rw [if_pos none] at unfinished
        cases unfinished
      · rw [if_neg none] at unfinished ⊢
        rw [← bind_assoc, unfinished, bind_error]

/-- A read ends and stays on the volume exactly if its links do. -/
theorem file_ends_iff (clusterSize : fs.bytesPerClus = 512 * fs.secPerClus)
    (start size offset len : Nat) (recorded : size < 2 ^ 32)
    (within : offset + len ≤ size) :
    (Walk.file start size offset len recorded within).Ends fs disk ↔
      (Walk.file start size offset len recorded within).OnVolume fs disk := by
  have clamped : clamp size offset len = len := by
    rw [clamp_within (by omega) (by omega) (by omega)]
    omega
  have begins := first_position fs
  constructor
  · rintro ⟨turns, ended, accesses⟩
    have walkEnded : fs.walk disk offset turns ((0 + 1) * fs.bytesPerClus % 2 ^ 32)
        (link fs disk start 0) ≠ .error .unfinished := by
      intro unfinished
      rw [begins] at unfinished
      exact ended (by rw [FileSystem.read, show start = link fs disk start 0 from rfl, unfinished,
        bind_error])
    obtain ⟨n, enough, passes⟩ := passes_of_walk sectorSize
      (fun k less => absurd less (Nat.not_lt_zero k)) walkEnded
    exact ⟨n, (read_covered sectorSize clusterSize passes (by omega) clamped ended).mp accesses⟩
  · rintro ⟨n, covered⟩
    have enough : n < n + len + 1 := by omega
    have room : clamp size offset len ≤ 512 * (n + len + 1) := by
      omega
    have walks := (walk_from_start disk start sectorSize covered.passes enough).1
    obtain ⟨result, copied, reads⟩ := read_returns_of_walk sectorSize
      (by omega) covered.passes.positive walks room
    have ended : fs.read disk (n + len + 1) start size offset len ≠ .error .unfinished := by
      rw [reads]
      simp
    exact ⟨n + len + 1, ended,
      (read_covered sectorSize clusterSize covered.passes enough clamped ended).mpr covered⟩

end

/-- Below the last cluster of the 32-bit range the walk takes one link for each whole cluster in
front of the offset. -/
theorem passes_below (positive : 0 < fs.bytesPerClus) (below : offset < 2 ^ 32 - fs.bytesPerClus) :
    Passes fs offset (offset / fs.bytesPerClus) := by
  have part : offset / fs.bytesPerClus * fs.bytesPerClus ≤ offset := Nat.div_mul_le_self _ _
  have next : offset < (offset / fs.bytesPerClus + 1) * fs.bytesPerClus :=
    Nat.lt_mul_of_div_lt (Nat.lt_succ_self _) positive
  constructor
  · intro k less
    have scaled : (k + 1) * fs.bytesPerClus ≤ offset / fs.bytesPerClus * fs.bytesPerClus :=
      Nat.mul_le_mul_right _ less
    exact (Nat.mod_le _ _).trans (scaled.trans part)
  · rw [Nat.mod_eq_of_lt]
    · exact next
    · rw [Nat.succ_mul]
      omega

end Files

/-- The sectors of a cluster are counted in a byte. -/
theorem mounted_cluster_size (disk : Nat → UInt8) :
    (bootSector disk).fileSystem.bytesPerClus = 512 * (bootSector disk).fileSystem.secPerClus := by
  have byte : (bootSector disk).secPerClus < 2 ^ 8 := ByteMemory.load_lt _ _ _
  rw [bytesPerClus]
  dsimp only [BootSector.fileSystem]
  omega

/-- A disk with two linked clusters. -/
def linkedDisk : Nat → UInt8 := sampleDisk 2 [3, 0, 0, 0, 0xFF, 0xFF, 0xFF, 0x0F] []

/-- A cluster that is linked to itself. -/
theorem self_link_never_ends {fs : FileSystem} {disk : Nat → UInt8}
    (empty : lookedAt (fs.clusterSectors disk clus) = []) (self : fs.nextClus disk clus = clus)
    (other : ¬ FileSystem.IsEnd clus) (n : Nat) (pending : Pending) :
    ¬ DirectoryEnds fs disk n pending clus := by
  induction n with
  | zero => exact id
  | succ n ih =>
    rintro ⟨-, ends⟩
    rw [empty, self] at ends
    exact ends.2.elim other ih

/-- A disk with a cluster that is linked to itself and one that ends a chain. -/
def loopedDisk : Nat → UInt8 := sampleDisk 2 [2, 0, 0, 0, 0xFF, 0xFF, 0xFF, 0x0F] []

end Mftt.Fat
