import Mftt.FatReads

/-!
# Reading a file from its beginning

`vfs_read` hands a read to the file system at the offset of the open file and then moves
that offset by the length asked for, whatever was returned. A sequence of reads returns
the file piece by piece exactly as long as every read asks for bytes that are still there
and finds them in place.
-/

namespace Mftt.Fat

open Slices

variable {v : Volume} (f : File v)

/-- `vfs_read(file, buf, 0, len)`: the value returned, the bytes copied, the new `f_offset`. -/
def vfsRead (turns fOffset len : Nat) : Except Fault (Int × List UInt8 × Nat) :=
  v.fileSystem.read v.disk turns f.start f.size fOffset len >>= fun (r, copied) =>
    .ok (r, copied, (fOffset + len) % 2 ^ 64)

/-- Reads of the given lengths, after `total` bytes were returned and with `f_offset` at `total`,
go on with the file's content: each returns at most what it was asked for and what the file still
has, copies just the bytes that follow, and leaves `f_offset` at the number of bytes returned. -/
def Continues : Nat → List Nat → Prop
  | _, [] => True
  | total, len :: rest =>
    ∃ turns r fOffset,
      vfsRead f turns total len = .ok ((r : Nat), slice f.content total r, fOffset) ∧
      r ≤ len ∧ total + r ≤ f.size ∧ fOffset = total + r ∧ Continues (total + r) rest

/-- A read after `total` bytes gets what it asks for: the file has that many bytes, their number
is an `int`, the walk to their cluster ends, and the part before the first whole sector is the
same in the first sector of the cluster. -/
structure Served (total len : Nat) : Prop where
  within : total + len ≤ f.size
  below : total < 2 ^ 32 - v.clusterSize
  small : len < 2 ^ 31
  inPlace : ∀ k, k < headLength total len →
    v.disk (v.clusterAddr (f.clusterOf total) + total % 512 + k) = f.content (total + k)

variable {f}

/-- A read that goes on with the content and keeps `f_offset` right was served in full. -/
theorem served_of_continues {turns total len r fOffset : Nat} (len_lt : len < 2 ^ 64)
    (reads : vfsRead f turns total len = .ok ((r : Nat), slice f.content total r, fOffset))
    (most : r ≤ len) (inside : total + r ≤ f.size) (moved : fOffset = total + r) :
    r = len ∧ Served f total len := by
  obtain ⟨⟨result, copied⟩, reads, rest⟩ := bind_eq_ok.mp reads
  obtain ⟨returned, rest⟩ := Prod.mk.inj (Except.ok.inj rest)
  obtain ⟨bytes, offset_eq⟩ := Prod.mk.inj rest
  subst returned bytes
  -- `f_offset` moved by the length asked for, so all of it was returned.
  have full : r = len := by omega
  subst full
  have below := (volume_read_count v reads).2.2
  have count : min r (f.size - total) = r := by omega
  have condition := (read_matches_iff (by omega) below (by omega) reads).mp (by rw [count]; simp)
  rw [count] at condition
  exact ⟨rfl, inside, below, condition.1, condition.2⟩

theorem vfs_read_of_served {total len : Nat} (served : Served f total len) :
    ∃ turns, vfsRead f turns total len =
      .ok ((len : Nat), slice f.content total len, total + len) := by
  have size_lt := f.size_lt
  have within := served.within
  have count : min len (f.size - total) = len := by omega
  obtain ⟨turns, result, copied, reads⟩ :=
    volume_read_returns v f.start f.size len served.below
  have condition := (read_matches_iff (by omega) served.below (by omega) reads).mpr
    (by rw [count]; exact ⟨served.small, served.inPlace⟩)
  rw [count] at condition
  obtain ⟨rfl, rfl⟩ := condition
  refine ⟨turns, ?_⟩
  rw [vfsRead, reads, bind_ok]
  rw [Nat.mod_eq_of_lt (by omega)]

/-- Reads that go on with the content after `total` bytes are those that are all served.

Proof: by induction on the lengths. The first read is served exactly when it goes on with the
content, and then the others start where it ended. -/
theorem continues_iff {total : Nat} {lens : List Nat} (sizes : ∀ len ∈ lens, len < 2 ^ 64) :
    Continues f total lens ↔ ∀ before len after, lens = before ++ len :: after →
      Served f (total + before.sum) len := by
  induction lens generalizing total with
  | nil => simp [Continues]
  | cons len rest ih =>
    have later : ∀ other ∈ rest, other < 2 ^ 64 :=
      fun other member => sizes other (List.mem_cons_of_mem _ member)
    constructor
    · rintro ⟨turns, r, fOffset, reads, most, inside, moved, continues⟩
      obtain ⟨rfl, served⟩ :=
        served_of_continues (sizes len List.mem_cons_self) reads most inside moved
      intro before next after split
      cases before with
      | nil =>
        cases split
        exact served
      | cons first before =>
        cases split
        rw [List.sum_cons, ← Nat.add_assoc]
        exact (ih later).mp continues before next after rfl
    · intro all
      have served : Served f total len := all [] len rest rfl
      obtain ⟨turns, reads⟩ := vfs_read_of_served served
      refine ⟨turns, len, total + len, reads, Nat.le_refl _, served.within, rfl, ?_⟩
      apply (ih later).mpr
      intro before next after split
      have placed := all (len :: before) next after (by rw [split, List.cons_append])
      rwa [List.sum_cons, ← Nat.add_assoc] at placed

variable (f) in
/-- A freshly opened file is read in order exactly when each read is served where the reads
before it ended. -/
theorem sequential_reads_iff (lens : List Nat) (sizes : ∀ len ∈ lens, len < 2 ^ 64) :
    Continues f 0 lens ↔ ∀ before len after, lens = before ++ len :: after →
      Served f before.sum len := by
  have law : Continues f 0 lens ↔ ∀ before len after, lens = before ++ len :: after →
      Served f (0 + before.sum) len := continues_iff sizes
  simpa only [Nat.zero_add] using law

theorem striped_file_sequence : Continues stripedFile 0 [512, 512] := by
  apply (sequential_reads_iff stripedFile [512, 512] (by decide)).mpr
  intro before len after split
  have places : (before.sum = 0 ∨ before.sum = 512) ∧ len = 512 := by
    rcases before with _ | ⟨a, _ | ⟨b, before⟩⟩
    · cases split
      exact ⟨.inl rfl, rfl⟩
    · cases split
      exact ⟨.inr rfl, rfl⟩
    · simp at split
  obtain ⟨starts | starts, rfl⟩ := places
  · rw [starts]
    exact ⟨by decide, by decide, by decide, fun k below => absurd below (Nat.not_lt_zero k)⟩
  · rw [starts]
    exact ⟨by decide, by decide, by decide, fun k below => absurd below (Nat.not_lt_zero k)⟩

/-- A read of more than the file has moves `f_offset` behind its end. -/
theorem striped_file_overtaken : ¬ Continues stripedFile 0 [1025] := by
  rintro ⟨turns, r, fOffset, reads, most, inside, moved, -⟩
  have full := (served_of_continues (by decide) reads most inside moved).1
  subst full
  exact absurd inside (by decide)

end Mftt.Fat
