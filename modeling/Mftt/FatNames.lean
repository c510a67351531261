import Mftt.FatDirectories

/-!
# Where the names of directory entries are written

The buffer of a long name has thirteen characters for each piece that its first entry announces.
The loop writes the characters of every further piece into it, until a short entry ends the name;
nothing bounds how many pieces these are. The array for a short name has no room for eight
characters, a dot, an extension of three and the terminator.

A name stays in its buffer exactly if the pieces in front of each short entry have no more
characters than the first of them announces, and no entry without long name has eight characters
and an extension.
-/

namespace Mftt.Fat

open List

/-! ## The condition on entries -/

/-- The characters that a piece puts into the buffer. -/
def pieceChars (e : DirEnt) : List UInt8 := (DirEnt.pieces e).filter fun ch => ch ≠ 0 ∧ ch ≠ 0xFF

/-- The short name has less than eight characters, or no extension. -/
def ShortFits (e : DirEnt) : Prop := DirEnt.byte e 8 = 0x20 ∨ DirEnt.byte e 7 = 0x20

instance (e : DirEnt) : Decidable (ShortFits e) := inferInstanceAs (Decidable (_ ∨ _))

/-- Entries that the loop passes over. -/
def Skipped (e : DirEnt) : Prop :=
  DirEnt.first e = 0xE5 ∨ DirEnt.first e = 0x05 ∨ DirEnt.first e = 0x2E

instance (e : DirEnt) : Decidable (Skipped e) := inferInstanceAs (Decidable (_ ∨ _ ∨ _))

/-- The room that is left for a long name, and its check sum. -/
abbrev Pending := Option (Nat × UInt8)

/-- What an entry does to the names: it writes too much, it fails an assertion, or the loop goes
on. A loop that is not strict goes on where too much is written. -/
inductive NameStep where
  | overflow
  | stop
  | go (pending : Pending)

/-- A piece with some room in the buffer. -/
def pieceStep (strict : Bool) (e : DirEnt) (room : Nat) (checksum : UInt8) : NameStep :=
  if strict = false ∨ (pieceChars e).length ≤ room then
    .go (some (room - (pieceChars e).length, checksum))
  else .overflow

/-- The step of an entry: a piece of a long name starts the buffer, with room for thirteen
characters for each piece it announces, or goes into it. -/
def nameStep (strict : Bool) (pending : Pending) (e : DirEnt) : NameStep :=
  if Skipped e then .go pending
  else if DirEnt.attr e = FS_ATTR_LONGNAME then
    match pending with
    | none =>
      if DirEnt.first e &&& 0x40 = 0 then .stop
      else pieceStep strict e (13 * DirEnt.ord e) (DirEnt.chkSum e)
    | some (room, checksum) =>
      if DirEnt.chkSum e = checksum then pieceStep strict e room checksum else .stop
  else if DirEnt.attr e &&& ATTR_VOLUME_ID ≠ 0 then .go pending
  else
    match pending with
    | none => if strict = false ∨ ShortFits e then .go none else .overflow
    | some (_, checksum) => if checksum = checksumFname e then .go none else .stop

/-- No entry of a list writes outside the buffers, up to one that fails an assertion. -/
def NamesFit : Pending → List DirEnt → Prop
  | _, [] => True
  | pending, e :: rest =>
    match nameStep true pending e with
    | .overflow => False
    | .stop => True
    | .go pending => NamesFit pending rest

instance decidableNamesFit : (pending : Pending) → (entries : List DirEnt) →
    Decidable (NamesFit pending entries)
  | _, [] => inferInstanceAs (Decidable True)
  | pending, e :: rest =>
    show Decidable (match nameStep true pending e with
      | .overflow => False
      | .stop => True
      | .go pending => NamesFit pending rest) from
    match nameStep true pending e with
    | .overflow => inferInstanceAs (Decidable False)
    | .stop => inferInstanceAs (Decidable True)
    | .go pending => decidableNamesFit pending rest

/-- The entries of sectors that the loop looks at: in each sector those in front of an end
marker. -/
def lookedAt (sectors : List (List DirEnt)) : List DirEnt :=
  sectors.flatMap fun sector => sector.takeWhile fun e => DirEnt.first e ≠ 0

/-! ## Short names -/

variable {strict : Bool} {e : DirEnt} {s : Scan} {entries : List DirEnt}

section Short

theorem copy_bytes_eq {buffer cs : List UInt8} {p : Nat} (fits : p + cs.length ≤ buffer.length) :
    copyBytes buffer.length buffer p cs =
      .ok (buffer.take p ++ cs ++ buffer.drop (p + cs.length)) := by
  induction cs generalizing buffer p with
  | nil => simp [copyBytes]
  | cons ch rest ih =>
    rw [length_cons] at fits
    have place : p < buffer.length := by omega
    have copied := ih (by rw [length_set]; omega :
      p + 1 + rest.length ≤ (buffer.set p ch).length)
    rw [length_set] at copied
    rw [copyBytes, storeByte, if_pos place, bind_ok, copied]
    congr 1
    have front : (buffer.set p ch).take (p + 1) = buffer.take p ++ [ch] := by
      rw [take_add_one, List.getElem?_set_self place, take_set_of_le le_rfl]
      rfl
    have back : (buffer.set p ch).drop (p + 1 + rest.length) =
        buffer.drop (p + (rest.length + 1)) := by
      rw [drop_set_of_lt (by omega)]
      congr 1
      omega
    rw [front, back]
    simp

theorem copy_bytes_within {size p : Nat} {buffer cs : List UInt8} (length : buffer.length = size)
    (fits : p + cs.length ≤ size) :
    copyBytes size buffer p cs = .ok (buffer.take p ++ cs ++ buffer.drop (p + cs.length)) := by
  rw [← length]
  exact copy_bytes_eq (length ▸ fits)

theorem name_length_le (dname : List UInt8) (p : Nat) : nameLength dname p ≤ p := by
  induction p with
  | zero => exact le_rfl
  | succ p ih =>
    rw [nameLength]
    split
    · exact ih.trans (Nat.le_succ p)
    · exact le_rfl

theorem name_size_ge (strict : Bool) : 12 ≤ nameSize strict := by
  cases strict <;> decide

/-- The array after the first eight characters have been copied. -/
def eightChars (strict : Bool) (e : DirEnt) : List UInt8 :=
  e.take 8 ++ List.replicate (nameSize strict - (e.take 8).length) 0

theorem length_eight_chars (strict : Bool) (e : DirEnt) :
    (eightChars strict e).length = nameSize strict := by
  have size := name_size_ge strict
  have short : (e.take 8).length ≤ 8 := by rw [length_take]; omega
  rw [eightChars, length_append, length_replicate]
  omega

theorem copy_eight_chars (strict : Bool) (e : DirEnt) :
    copyBytes (nameSize strict) (List.replicate (nameSize strict) 0) 0 (e.take 8) =
      .ok (eightChars strict e) := by
  have size := name_size_ge strict
  have short : (e.take 8).length ≤ 8 := by rw [length_take]; omega
  rw [copy_bytes_within (length_replicate) (by omega), take_zero, nil_append,
    Nat.zero_add, drop_replicate, eightChars]

theorem eight_chars_get (strict : Bool) (e : DirEnt) {k : Nat} (less : k < 8) :
    (eightChars strict e).getD k 0 = DirEnt.byte e k := by
  rw [eightChars, DirEnt.byte, getD_eq_getElem?_getD, getD_eq_getElem?_getD]
  by_cases inside : k < e.length
  · rw [List.getElem?_append_left (by rw [length_take]; omega), List.getElem?_take_of_lt less]
  · rw [List.getElem?_append_right (by rw [length_take]; omega),
      List.getElem?_eq_none (by omega : e.length ≤ k), List.getElem?_replicate]
    split <;> rfl

theorem name_length_lt_eight (strict : Bool) (e : DirEnt) :
    nameLength (eightChars strict e) 8 < 8 ↔ DirEnt.byte e 7 = 0x20 := by
  rw [nameLength, eight_chars_get strict e (by decide)]
  by_cases blank : DirEnt.byte e 7 = 0x20
  · rw [if_pos blank]
    exact iff_of_true (Nat.lt_succ_of_le (name_length_le _ 7)) blank
  · rw [if_neg blank]
    exact iff_of_false (by omega) blank

theorem read_8_3_returns (fits : strict = false ∨ ShortFits e) :
    ∃ d, read83Filename strict e = .ok d := by
  have size := name_size_ge strict
  have bound := name_length_le (eightChars strict e) 8
  rw [read83Filename, read83FilenameInto, copy_eight_chars, bind_ok]
  by_cases blank : e.getD 8 0 = 0x20
  · rw [if_pos blank, storeByte, if_pos (by omega)]
    exact ⟨_, rfl⟩
  · have less : nameLength (eightChars strict e) 8 + 4 < nameSize strict := by
      rcases fits with rfl | fits
      · exact Nat.lt_succ_of_le (Nat.add_le_add_right bound 4)
      · have := (name_length_lt_eight strict e).mpr (fits.resolve_left blank)
        omega
    have extension : ((e.drop 8).take 3).length ≤ 3 := by rw [length_take]; omega
    rw [if_neg blank, storeByte, if_pos (by omega), bind_ok,
      copy_bytes_within (by rw [length_set, length_eight_chars]) (by omega), bind_ok,
      storeByte, if_pos (by omega)]
    exact ⟨_, rfl⟩

/-- The terminator of a name with eight characters and an extension is out of bounds. -/
theorem read_8_3_overruns (full : ¬ ShortFits e) :
    read83Filename true e = .error .outOfBounds := by
  have size : nameSize true = 12 := rfl
  have blank : ¬ e.getD 8 0 = 0x20 := fun blank => full (.inl blank)
  have bound := name_length_le (eightChars true e) 8
  have most : ¬ nameLength (eightChars true e) 8 < 8 := fun less =>
    full (.inr ((name_length_lt_eight true e).mp less))
  have extension : ((e.drop 8).take 3).length ≤ 3 := by rw [length_take]; omega
  rw [read83Filename, read83FilenameInto, copy_eight_chars, bind_ok]
  rw [if_neg blank, storeByte, if_pos (by omega), bind_ok,
    copy_bytes_within (by rw [length_set, length_eight_chars]) (by omega), bind_ok,
    storeByte, if_neg (by omega), bind_error]

end Short

/-! ## Long names -/

section Long

/-- The characters of a piece fit, and come in front of the others, or they do not fit. -/
theorem push_all_eq (l : LongName) (cs : List UInt8)
    (within : strict = true → l.chars.length ≤ 13 * l.ord) :
    l.pushAll strict cs =
      if strict = false ∨
          l.chars.length + (cs.filter fun ch => ch ≠ 0 ∧ ch ≠ 0xFF).length ≤ 13 * l.ord then
        .ok { l with chars := (cs.filter fun ch => ch ≠ 0 ∧ ch ≠ 0xFF).reverse ++ l.chars }
      else .error .outOfBounds := by
  induction cs generalizing l with
  | nil =>
    have fits : strict = false ∨ l.chars.length + 0 ≤ 13 * l.ord := by
      cases strict with
      | false => exact .inl rfl
      | true => exact .inr (within rfl)
    exact (if_pos fits).symm
  | cons ch rest ih =>
    rw [LongName.pushAll, LongName.push]
    by_cases kept : ch ≠ 0 ∧ ch ≠ 0xFF
    · rw [if_pos kept, filter_cons_of_pos (by simpa using kept)]
      by_cases room : strict = false ∨ l.chars.length < 13 * l.ord
      · have within' : strict = true → (ch :: l.chars).length ≤ 13 * l.ord := by
          rintro rfl
          exact room.resolve_left (by decide)
        rw [if_pos room, bind_ok, ih { l with chars := ch :: l.chars } within']
        simp only [length_cons, reverse_cons, append_assoc, singleton_append,
          Nat.add_assoc, Nat.add_comm 1]
      · rw [not_or] at room
        rw [if_neg (by tauto), bind_error, if_neg]
        rw [not_or, length_cons]
        exact ⟨room.1, by omega⟩
    · rw [if_neg kept, bind_ok, ih l within, filter_cons_of_neg (by simpa using kept)]

/-- The long name of a state is inside its buffer, if the loop is strict. -/
def Scan.Inside (strict : Bool) (s : Scan) : Prop :=
  ∀ l ∈ s.long, strict = true → l.chars.length ≤ 13 * l.ord

/-- The room that a state leaves for a long name. -/
def Scan.pending (s : Scan) : Pending :=
  s.long.map fun l => (13 * l.ord - l.chars.length, l.checksum)

section Turns

variable (strict : Bool) (supply : Nat → Nat → Bool) (callback : DirEnt → List UInt8 → Bool)

/-- How a turn of the loop follows the step of its entry: it faults if there is no room or an
assertion fails, it goes on with the room that is left, or `kmalloc` or the callback end it. -/
inductive Follows : Except Fault Flow → NameStep → Prop where
  | overflow : Follows (.error .outOfBounds) .overflow
  | stop (message : String) : Follows (.error (.kpanic message)) .stop
  | next (s : Scan) : s.Inside strict → Follows (.ok (.next s)) (.go s.pending)
  | refused {calls size : Nat} (message : String) (step : NameStep) :
      supply calls size = false → Follows (.error (.kpanic message)) step
  | returned {e : DirEnt} {name : List UInt8} (s : Scan) (step : NameStep) :
      callback e name = true → Follows (.ok (.return s)) step

variable {strict supply callback}

/-- A piece that goes into a buffer. -/
theorem push_follows {l : LongName} (within : strict = true → l.chars.length ≤ 13 * l.ord)
    {room : Nat} (size : room = 13 * l.ord - l.chars.length) :
    Follows strict supply callback
      (l.pushAll strict (DirEnt.pieces e) >>= fun l => .ok (.next { s with long := some l }))
      (pieceStep strict e room l.checksum) := by
  rw [push_all_eq l _ within, pieceStep, pieceChars]
  have same : (strict = false ∨ l.chars.length +
      ((DirEnt.pieces e).filter fun ch => ch ≠ 0 ∧ ch ≠ 0xFF).length ≤ 13 * l.ord) ↔
      (strict = false ∨ ((DirEnt.pieces e).filter fun ch => ch ≠ 0 ∧ ch ≠ 0xFF).length ≤ room) := by
    cases strict with
    | false => simp
    | true =>
      have := within rfl
      simp only [Bool.true_eq_false, false_or]
      omega
  rw [if_congr same rfl rfl]
  by_cases fits : strict = false ∨
      ((DirEnt.pieces e).filter fun ch => ch ≠ 0 ∧ ch ≠ 0xFF).length ≤ room
  · rw [if_pos fits, if_pos fits]
    have next : Scan.Inside strict { s with long := some { l with chars :=
        ((DirEnt.pieces e).filter fun ch => ch ≠ 0 ∧ ch ≠ 0xFF).reverse ++ l.chars } } := by
      rintro _ ⟨⟩ rfl
      have := within rfl
      have := fits.resolve_left (by decide)
      rw [length_append, length_reverse]
      dsimp only
      omega
    have left : room - ((DirEnt.pieces e).filter fun ch => ch ≠ 0 ∧ ch ≠ 0xFF).length =
        13 * l.ord - (((DirEnt.pieces e).filter fun ch => ch ≠ 0 ∧ ch ≠ 0xFF).reverse ++
          l.chars).length := by
      rw [length_append, length_reverse]
      omega
    rw [left]
    exact .next _ next
  · rw [if_neg fits, if_neg fits]
    exact .overflow

/-- The branch of a long entry. -/
theorem long_piece_follows (inside : s.Inside strict) (unskipped : ¬ Skipped e)
    (long : DirEnt.attr e = FS_ATTR_LONGNAME) :
    Follows strict supply callback (longPiece strict supply s e >>= fun s => .ok (.next s))
      (nameStep strict s.pending e) := by
  rw [nameStep.eq_def, if_neg unskipped, if_pos long, longPiece, Scan.pending]
  cases pending : s.long with
  | none =>
    by_cases last : DirEnt.first e &&& 0x40 = 0
    · rw [if_pos last, assert, if_neg (not_not.mpr last)]
      exact .stop _
    · rw [if_neg last, assert_true _ last, bind_ok]
      by_cases served : supply s.calls.length (DirEnt.ord e * 13 + 1) = true
      · rw [assert_true _ served, bind_ok, bind_assoc]
        exact push_follows (fun _ => Nat.zero_le _) (Nat.sub_zero _).symm
      · rw [assert, if_neg served]
        exact .refused _ _ (Bool.eq_false_iff.mpr served)
  | some l =>
    dsimp only [Option.map_some]
    by_cases same : DirEnt.chkSum e = l.checksum
    · rw [if_pos same, assert_true _ same, bind_ok, bind_assoc]
      exact push_follows (inside l pending) rfl
    · rw [if_neg same, assert, if_neg same]
      exact .stop _

theorem call_back_follows (unskipped : ¬ Skipped e) (short : DirEnt.attr e ≠ FS_ATTR_LONGNAME)
    (file : DirEnt.attr e &&& ATTR_VOLUME_ID = 0) :
    Follows strict supply callback (callBack strict callback s e)
      (nameStep strict s.pending e) := by
  have empty : ∀ calls, Scan.Inside strict ⟨none, calls⟩ := fun _ l member => by cases member
  rw [nameStep.eq_def, if_neg unskipped, if_neg short, if_neg (not_not.mpr file), callBack,
    Scan.pending]
  cases pending : s.long with
  | none =>
    by_cases fits : strict = false ∨ ShortFits e
    · obtain ⟨dname, read⟩ := read_8_3_returns fits
      rw [if_pos fits, read, bind_ok]
      by_cases stops : callback e (cString dname) = true
      · rw [if_pos stops]
        exact .returned _ _ stops
      · rw [if_neg stops]
        exact .next ⟨none, _⟩ (empty _)
    · obtain ⟨checked, full⟩ := not_or.mp fits
      obtain rfl : strict = true := by simpa using checked
      rw [if_neg fits, read_8_3_overruns full]
      exact .overflow
  | some l =>
    dsimp only [Option.map_some]
    by_cases same : l.checksum = checksumFname e
    · rw [if_pos same, assert_true _ same]
      by_cases stops : callback e l.chars = true
      · rw [if_pos stops]
        exact .returned _ _ stops
      · rw [if_neg stops]
        exact .next ⟨none, _⟩ (empty _)
    · rw [if_neg same, assert, if_neg same]
      exact .stop _

theorem scan_entry_follows (inside : s.Inside strict) :
    Follows strict supply callback (scanEntry strict supply callback s e)
      (nameStep strict s.pending e) := by
  rw [scanEntry]
  by_cases skipped : Skipped e
  · have goes : (if DirEnt.first e = 0xE5 ∨ DirEnt.first e = 0x05 then .ok (.next s)
        else if DirEnt.first e = 0x2E then .ok (.next s)
        else (if DirEnt.attr e = FS_ATTR_LONGNAME then longPiece strict supply s e else .ok s) >>=
          fun s => if DirEnt.attr e &&& ATTR_VOLUME_ID ≠ 0 then .ok (.next s)
            else callBack strict callback s e) = (.ok (.next s) : Except Fault Flow) := by
      rcases skipped with first | first | first
      · rw [if_pos (.inl first)]
      · rw [if_pos (.inr first)]
      · rw [if_pos first, ite_self]
    rw [goes, nameStep.eq_def, if_pos skipped]
    exact .next s inside
  · have others : ¬ (DirEnt.first e = 0xE5 ∨ DirEnt.first e = 0x05) ∧ ¬ DirEnt.first e = 0x2E := by
      rw [Skipped] at skipped
      tauto
    rw [if_neg others.1, if_neg others.2]
    by_cases long : DirEnt.attr e = FS_ATTR_LONGNAME
    · rw [long]
      exact long_piece_follows inside skipped long
    · rw [if_neg long, bind_ok]
      by_cases volume : DirEnt.attr e &&& ATTR_VOLUME_ID ≠ 0
      · rw [if_pos volume, nameStep.eq_def, if_neg skipped, if_neg long, if_pos volume]
        exact .next s inside
      · rw [if_neg volume]
        exact call_back_follows skipped long (not_not.mp volume)

end Turns

end Long

/-! ## Whole directories -/

section Directories

variable {supply : Nat → Nat → Bool} {callback : DirEnt → List UInt8 → Bool}

/-- The loop over a sector looks at the entries in front of an end marker. -/
theorem scan_sector_looked (s : Scan) (sector : List DirEnt) :
    scanSector strict supply callback s sector =
      scanSector strict supply callback s (sector.takeWhile fun e => DirEnt.first e ≠ 0) := by
  induction sector generalizing s with
  | nil => rfl
  | cons e rest ih =>
    by_cases live : DirEnt.first e = 0
    · rw [takeWhile_cons_of_neg (by simpa using live), scanSector, scanSector, if_pos live]
    · rw [takeWhile_cons_of_pos (by simpa using live), scanSector, scanSector, if_neg live,
        if_neg live]
      congr 1
      funext flow
      cases flow with
      | next s => exact ih s
      | «return» s => rfl

/-- Without end markers entries can be scanned in parts. -/
theorem scan_sector_append (s : Scan) (first second : List DirEnt)
    (live : ∀ e ∈ first, DirEnt.first e ≠ 0) :
    scanSector strict supply callback s (first ++ second) =
      scanSector strict supply callback s first >>= fun (s, returned) =>
        if returned then .ok (s, true) else scanSector strict supply callback s second := by
  induction first generalizing s with
  | nil => rfl
  | cons e rest ih =>
    have head := live e mem_cons_self
    rw [cons_append, scanSector, scanSector, if_neg head, if_neg head, bind_assoc]
    congr 1
    funext flow
    cases flow with
    | next s => exact ih s fun e member => live e (mem_cons_of_mem _ member)
    | «return» s => rfl

/-- The loop over sectors is one over the entries it looks at. -/
theorem scan_sectors_eq (s : Scan) (sectors : List (List DirEnt)) :
    scanSectors strict supply callback s sectors =
      scanSector strict supply callback s (lookedAt sectors) := by
  induction sectors generalizing s with
  | nil => rfl
  | cons sector rest ih =>
    have live : ∀ e ∈ sector.takeWhile fun e => DirEnt.first e ≠ 0, DirEnt.first e ≠ 0 := by
      intro e member
      simpa using mem_takeWhile_imp member
    rw [scanSectors, lookedAt, flatMap_cons, scan_sector_append s _ _ live,
      ← scan_sector_looked]
    simp only [ih, lookedAt]

/-- A list of entries whose names fit is scanned without a fault of bounds. -/
theorem scan_of_names_fit (inside : s.Inside true) (fit : NamesFit s.pending entries) :
    scanSector true supply callback s entries ≠ .error .outOfBounds := by
  induction entries generalizing s with
  | nil => simp [scanSector]
  | cons e rest ih =>
    rw [scanSector]
    split
    · simp
    have follows : Follows true supply callback (scanEntry true supply callback s e)
        (nameStep true s.pending e) := scan_entry_follows inside
    rw [NamesFit] at fit
    generalize scanEntry true supply callback s e = flow at follows
    generalize nameStep true s.pending e = step at follows fit
    cases follows with
    | overflow => exact absurd fit id
    | stop message => simp
    | next s inside => exact ih inside fit
    | refused message step unserved => simp
    | returned s step stops => simp

/-- Names that do not fit are written outside if `kmalloc` and the callback let the loop go on. -/
theorem names_fit_of_scan (inside : s.Inside true) (live : ∀ e ∈ entries, DirEnt.first e ≠ 0)
    (scans : scanSector true (fun _ _ => true) (fun _ _ => false) s entries ≠ .error .outOfBounds) :
    NamesFit s.pending entries := by
  induction entries generalizing s with
  | nil => trivial
  | cons e rest ih =>
    rw [scanSector, if_neg (live e mem_cons_self)] at scans
    have follows : Follows true (fun _ _ => true) (fun _ _ => false)
        (scanEntry true (fun _ _ => true) (fun _ _ => false) s e) (nameStep true s.pending e) :=
      scan_entry_follows inside
    rw [NamesFit]
    generalize scanEntry true (fun _ _ => true) (fun _ _ => false) s e = flow at follows scans
    generalize nameStep true s.pending e = step at follows
    cases follows with
    | overflow => exact absurd rfl scans
    | stop message => trivial
    | next s inside =>
      exact ih inside (fun e member => live e (mem_cons_of_mem _ member)) scans
    | refused message step unserved => exact absurd unserved (by decide)
    | returned s step stops => exact absurd stops (by decide)

end Directories

/-- The entries that the loop looks at in the first clusters of a chain. -/
def FileSystem.entriesIn (fs : FileSystem) (disk : Nat → UInt8) (turns clus : Nat) : List DirEnt :=
  lookedAt ((fs.chain disk turns clus).flatMap (fs.clusterSectors disk))

variable {fs : FileSystem} {disk : Nat → UInt8}

/-- The loop writes outside a buffer if the scan of the entries does. -/
theorem loop_overflows_iff (sectorSize : fs.bytesPerSec = 512) (supply : Nat → Nat → Bool)
    (callback : DirEnt → List UInt8 → Bool) (turns clus : Nat) (s : Scan) :
    fs.loopFatDirent disk true supply callback turns clus s = .error .outOfBounds ↔
      scanSector true supply callback s (fs.entriesIn disk turns clus) = .error .outOfBounds := by
  rw [loop_fat_dirent_eq sectorSize, scan_sectors_eq, FileSystem.entriesIn]
  cases scanSector true supply callback s
      (lookedAt ((fs.chain disk turns clus).flatMap (fs.clusterSectors disk))) with
  | error fault => simp
  | ok result =>
    rw [bind_ok]
    dsimp only
    split <;> simp

theorem looked_at_live (sectors : List (List DirEnt)) :
    ∀ e ∈ lookedAt sectors, DirEnt.first e ≠ 0 := by
  intro e member
  obtain ⟨sector, -, looked⟩ := mem_flatMap.mp member
  simpa using mem_takeWhile_imp looked

/-- On every disk that is mounted, `loop_fat_dirent` keeps the names of a directory inside their
buffers, whatever the callback and `kmalloc` do, exactly if the names of the entries in the
clusters it goes through fit. -/
theorem names_in_buffers_iff (disk : Nat → UInt8) (fs : FileSystem)
    (mounted : fatReadSuperblock disk = .ok fs) (dirClus : Nat) :
    (∀ supply callback turns,
      fs.loopFatDirent disk true supply callback turns dirClus ⟨none, []⟩ ≠ .error .outOfBounds) ↔
    ∀ turns, NamesFit none (fs.entriesIn disk turns dirClus) := by
  have sectorSize : fs.bytesPerSec = 512 := by
    obtain ⟨rfl, sectorSize⟩ := superblock_eq_ok mounted
    exact sectorSize
  have start : Scan.Inside true ⟨none, []⟩ := fun l member => by cases member
  constructor
  · intro inBounds turns
    refine names_fit_of_scan start (looked_at_live _) fun overflows => ?_
    exact inBounds _ _ turns ((loop_overflows_iff sectorSize _ _ turns dirClus _).mpr overflows)
  · intro fit supply callback turns overflows
    exact scan_of_names_fit start (fit turns)
      ((loop_overflows_iff sectorSize supply callback turns dirClus _).mp overflows)

/-- A disk whose root directory has one file, with the given name. -/
def oneFileDisk (name : List UInt8) : Nat → UInt8 :=
  sampleDisk 2 [0xFF, 0xFF, 0xFF, 0x0F] (name ++ [0x20])

/-- Its loop goes through one cluster. -/
theorem one_cluster_entries {clus : Nat} (last : FileSystem.IsEnd (fs.nextClus disk clus))
    (turns : Nat) :
    fs.entriesIn disk (turns + 1) clus = lookedAt (fs.clusterSectors disk clus) := by
  rw [FileSystem.entriesIn, FileSystem.chain, if_pos last, flatMap_singleton]

/-- The names of `FILE.TXT`. -/
theorem plain_name_in_buffer :
    let disk := oneFileDisk [0x46, 0x49, 0x4C, 0x45, 0x20, 0x20, 0x20, 0x20, 0x54, 0x58, 0x54]
    ∀ supply callback turns, (bootSector disk).fileSystem.loopFatDirent disk true supply callback
      turns 2 ⟨none, []⟩ ≠ .error .outOfBounds := by
  refine (names_in_buffers_iff _ _ (by decide +kernel) 2).mpr fun turns => ?_
  cases turns with
  | zero => trivial
  | succ turns =>
    rw [one_cluster_entries (by decide +kernel)]
    decide +kernel

/-- The terminator of `ABCDEFGH.TXT` is written behind the array. -/
theorem full_name_overruns :
    let disk := oneFileDisk [0x41, 0x42, 0x43, 0x44, 0x45, 0x46, 0x47, 0x48, 0x54, 0x58, 0x54]
    (bootSector disk).fileSystem.loopFatDirent disk true (fun _ _ => true) (fun _ _ => false) 1 2
      ⟨none, []⟩ = .error .outOfBounds := by
  decide +kernel

end Mftt.Fat
