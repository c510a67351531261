import Mathlib.Data.List.Induction
import Mftt.FatNames

/-!
# Short names and file names

`read_8_3_filename` turns the eleven bytes of a short name into a file name, in a buffer of the
caller: the blanks at the end of both parts are left out, and a dot stands in front of an
extension. `write_8_3_filename` goes back and makes all letters capital. Between names that both
sides can express the two functions undo each other.
-/

namespace Mftt.Fat

open List

/-- `char_upper`. -/
def charUpper (c : UInt8) : UInt8 := c - (if 0x61 ≤ c ∧ c ≤ 0x7A then 32 else 0)

/-- `for (i = namelen - 1; i >= 0; i--) if (fname[i] == '.')`, below an index. -/
def dotIndex (fname : List UInt8) : Nat → Option Nat
  | 0 => none
  | i + 1 => if fname.getD i 0 = 0x2E then some i else dotIndex fname i

/-- `for (i = 0; i < n; i++) buffer[start + i] = ...`. -/
def fillFrom (buffer : List UInt8) (start : Nat) (ch : Nat → UInt8) : Nat → List UInt8
  | 0 => buffer
  | n + 1 => (fillFrom buffer start ch n).set (start + n) (ch n)

/-- `write_8_3_filename` of the characters in front of the terminator, which are fewer than
`2 ^ 31`. -/
def write83Filename (fname : List UInt8) : List UInt8 :=
  let namelen := fname.length
  let buffer := List.replicate 11 0x20
  let dot := dotIndex fname namelen
  let buffer := match dot with
    | some dot => fillFrom buffer 8 (fun i =>
        if dot + 1 + i ≥ namelen then 0x20 else charUpper (fname.getD (dot + 1 + i) 0)) 3
    | none => fillFrom buffer 8 (fun _ => 0x20) 3
  let firstpart := dot.getD namelen
  if firstpart > 8 then
    ((fillFrom buffer 0 (fun i => charUpper (fname.getD i 0)) 6).set 6 0x7E).set 7 0x31
  else fillFrom buffer 0 (fun i => charUpper (fname.getD i 0)) firstpart

/-- A part of a short name with blanks up to its width. -/
def padded (width : Nat) (part : List UInt8) : List UInt8 :=
  part ++ List.replicate (width - part.length) 0x20

/-- A file name of two parts. -/
def joined (base extension : List UInt8) : List UInt8 :=
  if extension = [] then base else base ++ 0x2E :: extension

/-! ## Buffers -/

variable {buffer rest : List UInt8} {width : Nat}

theorem fill_from_eq {start n : Nat} (ch : Nat → UInt8) (fits : start + n ≤ buffer.length) :
    fillFrom buffer start ch n =
      buffer.take start ++ (List.range n).map ch ++ buffer.drop (start + n) := by
  induction n with
  | zero => simp [fillFrom]
  | succ n ih =>
    have length : (buffer.take start ++ (List.range n).map ch).length = start + n := by
      rw [length_append, length_take, length_map, length_range]
      omega
    rw [fillFrom, ih (by omega), set_append_right _ _ (by omega), length,
      drop_eq_getElem_cons (by omega : start + n < buffer.length), range_succ]
    simp [Nat.add_assoc]

theorem copy_bytes_singleton (size : Nat) (buffer : List UInt8) (p : Nat) (ch : UInt8) :
    copyBytes size buffer p [ch] = storeByte size buffer p ch := by
  rw [copyBytes]
  cases storeByte size buffer p ch <;> rfl

theorem copy_bytes_append (size : Nat) (buffer : List UInt8) (p : Nat) (cs cs' : List UInt8) :
    copyBytes size buffer p (cs ++ cs') =
      copyBytes size buffer p cs >>= fun buffer => copyBytes size buffer (p + cs.length) cs' := by
  induction cs generalizing buffer p with
  | nil => rfl
  | cons ch cs ih =>
    simp only [cons_append, copyBytes, bind_assoc, ih, length_cons, Nat.add_assoc,
      Nat.add_comm 1]

theorem copy_bytes_behind (front : List UInt8) {cs : List UInt8} (fits : cs.length ≤ rest.length) :
    copyBytes (front ++ rest).length (front ++ rest) front.length cs =
      .ok (front ++ (cs ++ rest.drop cs.length)) := by
  rw [copy_bytes_eq (by rw [length_append]; omega)]
  simp

/-- The blanks behind a part, with the last one apart. -/
theorem replicate_blank (part rest : List UInt8) (blanks : Nat) :
    part ++ (List.replicate (blanks + 1) 0x20 ++ rest) =
      (part ++ List.replicate blanks 0x20) ++ 0x20 :: rest := by
  simp [replicate_succ']

variable {part : List UInt8}

theorem last_char (ends : part.getLast? ≠ some 0x20) (rest : List UInt8) {p : Nat}
    (length : part.length = p + 1) : (part ++ rest).getD p 0 ≠ 0x20 := by
  rcases eq_nil_or_concat part with rfl | ⟨front, last, rfl⟩
  · cases length
  · have place : front.length = p := by simpa using length
    subst place
    simpa using ends

theorem name_length_eq (ends : part.getLast? ≠ some 0x20) (blanks : Nat) (rest : List UInt8) :
    nameLength (part ++ (List.replicate blanks 0x20 ++ rest)) (part.length + blanks) =
      part.length := by
  induction blanks generalizing rest with
  | zero =>
    cases length : part.length with
    | zero => rfl
    | succ p => rw [nameLength, if_neg (last_char ends _ length)]
  | succ blanks ih =>
    have again := ih (0x20 :: rest)
    rw [← append_assoc] at again
    rw [replicate_blank, ← Nat.add_assoc, nameLength, if_pos (by simp), again]

theorem clear_blanks_eq (ends : part.getLast? ≠ some 0x20) {p : Nat} (length : part.length = p + 1)
    (blanks : Nat) (rest : List UInt8) :
    clearBlanks (part ++ (List.replicate blanks 0x20 ++ rest)) (p + blanks) =
      part ++ (List.replicate blanks 0 ++ rest) := by
  induction blanks generalizing rest with
  | zero =>
    cases p with
    | zero => rfl
    | succ p => exact if_neg (last_char ends _ length)
  | succ blanks ih =>
    have place : p + blanks + 1 = (part ++ List.replicate blanks 0x20).length := by
      rw [length_append, length_replicate]
      omega
    have again := ih (0 :: rest)
    rw [replicate_blank, ← Nat.add_assoc, clearBlanks, place, if_pos (by simp),
      set_append_right _ _ (Nat.le_refl _), Nat.sub_self, set_cons_zero,
      append_assoc, again, replicate_succ', append_assoc]
    rfl

theorem c_string_eq (chars : ∀ ch ∈ part, ch ≠ 0) (terminated : rest.head? = some 0) :
    cString (part ++ rest) = part := by
  rw [cString, takeWhile_append_of_pos (by simpa using chars)]
  cases rest with
  | nil => cases terminated
  | cons ch rest =>
    cases terminated
    simp

/-! ## Parts of a name -/

/-- The parts of a short name without the blanks that fill them up. -/
structure Parts (base extension : List UInt8) : Prop where
  baseLength : base.length ≤ 8
  extensionLength : extension.length ≤ 3
  baseEnd : base.getLast? ≠ some 0x20
  extensionStart : extension.head? ≠ some 0x20
  extensionEnd : extension.getLast? ≠ some 0x20
  baseChars : ∀ ch ∈ base, ch ≠ 0x2E ∧ ch ≠ 0
  extensionChars : ∀ ch ∈ extension, ch ≠ 0x2E ∧ ch ≠ 0

variable {base extension : List UInt8}

theorem length_padded (short : part.length ≤ width) : (padded width part).length = width := by
  rw [padded, length_append, length_replicate]
  omega

/-- The base is copied with its blanks, which are then overwritten. -/
theorem copy_base (room : buffer.length = 13) (short : base.length ≤ 8)
    (ends : base.getLast? ≠ some 0x20) :
    ∃ rest, copyBytes 13 buffer 0 (padded 8 base) = .ok (base ++ rest) ∧
      nameLength (base ++ rest) 8 = base.length ∧ (base ++ rest).length = 13 := by
  have width := length_padded short
  have copied := copy_bytes_eq (by omega : 0 + (padded 8 base).length ≤ buffer.length)
  have found := name_length_eq ends (8 - base.length) (buffer.drop 8)
  rw [room, take_zero, nil_append, width, padded, append_assoc] at copied
  rw [Nat.add_sub_cancel' short] at found
  exact ⟨_, copied, found, by simp [room]; omega⟩

theorem copy_extension (room : (base ++ rest).length = 13) (left : 5 ≤ rest.length)
    (short : extension.length ≤ 3) :
    (storeByte 13 (base ++ rest) base.length 0x2E >>= fun buffer =>
      copyBytes 13 buffer (base.length + 1) (padded 3 extension) >>= fun buffer =>
      storeByte 13 buffer (base.length + 4) 0) =
      .ok ((base ++ 0x2E :: extension) ++
        (List.replicate (3 - extension.length) 0x20 ++ 0 :: rest.drop 5)) := by
  have width := length_padded short
  have copied := copy_bytes_behind base
    (by simpa [width] using left : ((0x2E :: padded 3 extension) ++ [0]).length ≤ rest.length)
  rw [room, copy_bytes_append, copyBytes, bind_assoc] at copied
  simp only [copy_bytes_singleton, length_append, length_cons, width] at copied
  rw [copied]
  simp [padded]

/-- A padded name is read back as its two parts, joined by a dot. -/
theorem read_8_3_joined (parts : Parts base extension) (room : buffer.length = 13) :
    ∃ name, read83FilenameInto 13 (padded 8 base ++ padded 3 extension) buffer = .ok name ∧
      cString name = joined base extension := by
  have width := length_padded parts.baseLength
  have width' := length_padded parts.extensionLength
  have short := parts.baseLength
  obtain ⟨rest, copied, found, length⟩ := copy_base room parts.baseLength parts.baseEnd
  have left : 5 ≤ rest.length := by
    rw [length_append] at length
    omega
  rw [read83FilenameInto, take_left' width, copied, bind_ok, drop_left' width,
    take_of_length_le (Nat.le_of_eq width'), getD_append_right _ _ _ _ (by omega), width]
  dsimp only
  rw [found]
  cases extension with
  | nil =>
    have blank : (padded 3 []).getD (8 - 8) 0 = 0x20 := rfl
    have closed := copy_bytes_behind base (by simp; omega : [(0 : UInt8)].length ≤ rest.length)
    rw [length, copy_bytes_singleton] at closed
    rw [closed]
    exact ⟨_, rfl, c_string_eq (fun ch member => (parts.baseChars ch member).2) rfl⟩
  | cons ch more =>
    have dot : (padded 3 (ch :: more)).getD (8 - 8) 0 ≠ 0x20 := by
      simpa [padded] using parts.extensionStart
    have ends : (base ++ 0x2E :: ch :: more).getLast? ≠ some 0x20 := by
      simpa using parts.extensionEnd
    have size : (base ++ 0x2E :: ch :: more).length = base.length + (more.length + 1) + 1 := by
      simp [Nat.add_assoc]
    have last : base.length + (more.length + 1) + (3 - (ch :: more).length) = base.length + 3 := by
      have short := parts.extensionLength
      rw [length_cons] at short ⊢
      omega
    have cleared := clear_blanks_eq ends size (3 - (ch :: more).length) (0 :: rest.drop 5)
    have written := congrArg (· >>= fun buffer => .ok (clearBlanks buffer (base.length + 3)))
      (copy_extension length left parts.extensionLength)
    simp only [bind_assoc, bind_ok] at written
    rw [last] at cleared
    rw [if_neg dot, written, cleared]
    have chars : ∀ c ∈ base ++ 0x2E :: ch :: more, c ≠ 0 := by
      intro c member
      rcases mem_append.mp member with inBase | behind
      · exact (parts.baseChars c inBase).2
      · rcases mem_cons.mp behind with rfl | inExtension
        · decide
        · exact (parts.extensionChars c inExtension).2
    exact ⟨_, rfl, c_string_eq chars (by cases 3 - (ch :: more).length <;> rfl)⟩

/-! ## Writing -/

/-- Characters that are read by their index. -/
theorem map_range_get (ch : UInt8 → UInt8) (part rest : List UInt8) :
    (List.range part.length).map (fun i => ch ((part ++ rest).getD i 0)) = part.map ch := by
  apply ext_getElem
  · simp
  · intro i inside inside'
    have below : i < part.length := by simpa using inside'
    simp [List.getElem?_append_left below, below]

/-- Characters that are read by their index, with blanks behind the last one. -/
theorem map_range_padded (short : part.length ≤ width) :
    (List.range width).map (fun i => if i ≥ part.length then 0x20 else charUpper (part.getD i 0)) =
      padded width (part.map charUpper) := by
  apply ext_getElem
  · rw [length_padded (by simpa using short), length_map, length_range]
  · intro i inside inside'
    by_cases below : i < part.length
    · simp [padded, below]
    · simp [padded, Nat.not_lt.mp below]

theorem dot_index_none {fname : List UInt8} (chars : ∀ ch ∈ fname, ch ≠ 0x2E) (i : Nat)
    (inside : i ≤ fname.length) : dotIndex fname i = none := by
  induction i with
  | zero => rfl
  | succ i ih =>
    have here : fname.getD i 0 ≠ 0x2E := by
      rw [getD_eq_getElem _ _ inside]
      exact chars _ (getElem_mem _)
    rw [dotIndex, if_neg here, ih (Nat.le_of_lt inside)]

theorem get_behind_dot (base extension : List UInt8) (i : Nat) :
    (base ++ 0x2E :: extension).getD (base.length + 1 + i) 0 = extension.getD i 0 := by
  rw [getD_append_right _ _ _ _ (by omega), Nat.add_right_comm, Nat.add_assoc,
    Nat.add_sub_cancel_left, getD_cons_succ]

theorem dot_index_last (chars : ∀ ch ∈ extension, ch ≠ 0x2E) (i : Nat)
    (inside : i ≤ extension.length) :
    dotIndex (base ++ 0x2E :: extension) (base.length + 1 + i) = some base.length := by
  induction i with
  | zero => simp [dotIndex]
  | succ i ih =>
    have here : extension.getD i 0 ≠ 0x2E := by
      rw [getD_eq_getElem _ _ inside]
      exact chars _ (getElem_mem _)
    rw [← Nat.add_assoc, dotIndex, get_behind_dot, if_neg here, ih (Nat.le_of_lt inside)]

/-- The base is written in front of an extension that is already there. -/
theorem fill_base (short : base.length ≤ 8) (rest tail : List UInt8) :
    fillFrom (List.replicate 8 0x20 ++ tail) 0 (fun i => charUpper ((base ++ rest).getD i 0))
      base.length = padded 8 (base.map charUpper) ++ tail := by
  have room : 0 + base.length ≤ (List.replicate 8 (0x20 : UInt8) ++ tail).length := by
    rw [length_append, length_replicate]
    omega
  rw [fill_from_eq _ room, map_range_get,
    drop_append_of_le_length (by simpa using short), drop_replicate, padded]
  simp

/-- Writing a file name fills up its parts, in capital letters. -/
theorem write_8_3_padded (parts : Parts base extension) :
    write83Filename (joined base extension) =
      padded 8 (base.map charUpper) ++ padded 3 (extension.map charUpper) := by
  have small := parts.baseLength
  rw [joined, write83Filename]
  split
  · rename_i none
    have index := dot_index_none (fun ch member => (parts.baseChars ch member).1) base.length le_rfl
    have written := fill_base small [] (padded 3 [])
    rw [append_nil] at written
    simp only [index, Option.getD_none, Nat.not_lt.mpr small, none]
    exact written
  · have length : (base ++ 0x2E :: extension).length = base.length + 1 + extension.length := by
      rw [length_append, length_cons]
      omega
    have index : dotIndex (base ++ 0x2E :: extension) (base.length + 1 + extension.length) =
        some base.length :=
      dot_index_last (fun ch member => (parts.extensionChars ch member).1) _ le_rfl
    have behind : fillFrom (List.replicate 11 0x20) 8 (fun i =>
        if base.length + 1 + i ≥ base.length + 1 + extension.length then 0x20
        else charUpper ((base ++ 0x2E :: extension).getD (base.length + 1 + i) 0)) 3 =
          List.replicate 8 0x20 ++ padded 3 (extension.map charUpper) := by
      simp only [get_behind_dot, Nat.add_le_add_iff_left]
      rw [fill_from_eq _ (by decide), map_range_padded parts.extensionLength]
      simp
    simp only [length, index, Option.getD_some, Nat.not_lt.mpr small, behind]
    exact fill_base small (0x2E :: extension) _

/-! ## Round trips -/

theorem char_upper_ne {c x : UInt8} (low : x < 0x41) (other : c ≠ x) : charUpper c ≠ x := by
  unfold charUpper
  grind

theorem map_upper_ne {ch : Option UInt8} (other : ch ≠ some 0x20) :
    ch.map charUpper ≠ some 0x20 := by
  intro same
  obtain ⟨c, rfl, upper⟩ := Option.map_eq_some_iff.mp same
  exact char_upper_ne (by decide) (fun blank => other (congrArg some blank)) upper

/-- Capital letters keep the parts of a name. -/
theorem Parts.upper (parts : Parts base extension) :
    Parts (base.map charUpper) (extension.map charUpper) := by
  have chars : ∀ part : List UInt8, (∀ ch ∈ part, ch ≠ 0x2E ∧ ch ≠ 0) →
      ∀ ch ∈ part.map charUpper, ch ≠ 0x2E ∧ ch ≠ 0 := by
    intro part plain ch member
    obtain ⟨c, inside, rfl⟩ := mem_map.mp member
    exact ⟨char_upper_ne (by decide) (plain c inside).1,
      char_upper_ne (by decide) (plain c inside).2⟩
  constructor
  · simpa using parts.baseLength
  · simpa using parts.extensionLength
  · rw [List.getLast?_map]
    exact map_upper_ne parts.baseEnd
  · rw [List.head?_map]
    exact map_upper_ne parts.extensionStart
  · rw [List.getLast?_map]
    exact map_upper_ne parts.extensionEnd
  · exact chars base parts.baseChars
  · exact chars extension parts.extensionChars

/-- A short name as it stands on the disk. Its extension has blanks at the end only. -/
structure ShortName (n : List UInt8) : Prop where
  length : n.length = 11
  extension : n.getD 8 0 = 0x20 → ∀ ch ∈ n.drop 8, ch = 0x20
  chars : ∀ ch ∈ n, ch ≠ 0x2E ∧ ch ≠ 0 ∧ ¬ (0x61 ≤ ch ∧ ch ≤ 0x7A)

/-- A field of a short name is a part that is filled up. -/
theorem exists_padded {field : List UInt8} (length : field.length = width) :
    ∃ part, field = padded width part ∧ part.length ≤ width ∧ part.getLast? ≠ some 0x20 ∧
      ∀ ch ∈ part, ch ∈ field := by
  induction field using List.reverseRecOn generalizing width with
  | nil => exact ⟨[], by simp [← length, padded], by simp, by simp, by simp⟩
  | append_singleton front last ih =>
    rw [length_append, length_singleton] at length
    by_cases blank : last = 0x20
    · obtain ⟨part, same, short, ends, inside⟩ := ih rfl
      refine ⟨part, ?_, by omega, ends, fun ch member => by simp [inside ch member]⟩
      rw [padded, ← length, Nat.sub_add_comm short, replicate_succ', ← append_assoc,
        blank, ← padded, ← same]
    · exact ⟨front ++ [last], by simp [padded, ← length], by simp [length], by simpa using blank,
        fun ch member => member⟩

/-- A short name is a base and an extension, both padded and in capitals. -/
theorem ShortName.exists_parts {n : List UInt8} (short : ShortName n) :
    ∃ base extension, Parts base extension ∧ n = padded 8 base ++ padded 3 extension ∧
      base.map charUpper = base ∧ extension.map charUpper = extension := by
  have length := short.length
  obtain ⟨base, first, baseLength, baseEnd, inBase⟩ :=
    exists_padded (by rw [length_take]; omega : (n.take 8).length = 8)
  obtain ⟨extension, second, extensionLength, extensionEnd, inExtension⟩ :=
    exists_padded (by rw [length_drop]; omega : (n.drop 8).length = 3)
  have baseChars := fun ch member => short.chars ch (mem_of_mem_take (inBase ch member))
  have extensionChars := fun ch member =>
    short.chars ch (mem_of_mem_drop (inExtension ch member))
  have fixed : ∀ part : List UInt8, (∀ ch ∈ part, ¬ (0x61 ≤ ch ∧ ch ≤ 0x7A)) →
      part.map charUpper = part := by
    intro part capital
    refine (map_congr_left (fun ch member => ?_)).trans (map_id part)
    rw [charUpper, if_neg (capital ch member), UInt8.sub_zero, id]
  have extensionStart : extension.head? ≠ some 0x20 := by
    intro blank
    have start : (n.drop 8).head? = some 0x20 := by
      rw [second, padded, List.head?_append, blank]
      rfl
    rw [List.head?_drop] at start
    have all := short.extension (by rw [getD_eq_getElem?_getD, start]; rfl)
    rcases eq_nil_or_concat extension with rfl | ⟨front, last, rfl⟩
    · cases blank
    · exact extensionEnd (by simp [all last (inExtension last (by simp))])
  refine ⟨base, extension, ⟨baseLength, extensionLength, baseEnd, extensionStart, extensionEnd,
    fun ch member => ⟨(baseChars ch member).1, (baseChars ch member).2.1⟩,
    fun ch member => ⟨(extensionChars ch member).1, (extensionChars ch member).2.1⟩⟩, ?_,
    fixed base (fun ch member => (baseChars ch member).2.2),
    fixed extension (fun ch member => (extensionChars ch member).2.2)⟩
  rw [← first, ← second, take_append_drop]

/-- Reading a short name and writing the file name gives the short name again, and writing a file
name and reading the short name gives the file name in capital letters. -/
theorem short_names_round_trip :
    (∀ n buffer, ShortName n → buffer.length = 13 →
      ∃ name, read83FilenameInto 13 n buffer = .ok name ∧ write83Filename (cString name) = n) ∧
    ∀ base extension buffer, Parts base extension → buffer.length = 13 →
      ∃ name, read83FilenameInto 13 (write83Filename (joined base extension)) buffer = .ok name ∧
        cString name = (joined base extension).map charUpper := by
  refine ⟨fun n buffer short room => ?_, fun base extension buffer parts room => ?_⟩
  · obtain ⟨base, extension, parts, rfl, baseUpper, extensionUpper⟩ := short.exists_parts
    obtain ⟨name, reads, text⟩ := read_8_3_joined parts room
    refine ⟨name, reads, ?_⟩
    rw [text, write_8_3_padded parts, baseUpper, extensionUpper]
  · obtain ⟨name, reads, text⟩ := read_8_3_joined parts.upper room
    refine ⟨name, by rw [write_8_3_padded parts, reads], ?_⟩
    rw [text, joined, joined]
    by_cases none : extension = []
    · simp [none]
    · rw [if_neg (by simpa using none), if_neg none, map_append, map_cons]
      rfl

/-- README.TXT, as it stands on the disk. -/
def readme : List UInt8 :=
  [0x52, 0x45, 0x41, 0x44, 0x4D, 0x45, 0x20, 0x20, 0x54, 0x58, 0x54]

theorem readme_round_trip :
    ∃ name, read83FilenameInto 13 readme (List.replicate 13 0) = .ok name ∧
      write83Filename (cString name) = readme :=
  short_names_round_trip.1 readme _ ⟨rfl, by decide, by simp [readme]⟩ rfl

end Mftt.Fat
