import Mathlib.Data.List.Induction
import Mathlib.Data.Nat.Digits.Lemmas
import Mftt.Fault

/-!
# Numbers as text

`itoa` of the kernel and `itoa` of the user library write the digits of a number from the last
to the first, through a table that has the digits in both directions, and then turn them round
in place. They differ in how they divide: the kernel takes the value for an unsigned number, the
user library divides with the sign and finds the digits of the negative remainders in the left
half of the table. Both put a '-' in front of a negative value in base 10.

The buffer is the list of the characters written so far.
-/

namespace Mftt

/-- The digits of base 36. -/
def DIGITS : List Char :=
  ['0', '1', '2', '3', '4', '5', '6', '7', '8', '9', 'A', 'B', 'C', 'D', 'E', 'F', 'G', 'H', 'I',
    'J', 'K', 'L', 'M', 'N', 'O', 'P', 'Q', 'R', 'S', 'T', 'U', 'V', 'W', 'X', 'Y', 'Z']

/-- The table of both functions, from 'Z' down to '0' and up to 'Z' again. -/
def digitTable : List Char := DIGITS.tail.reverse ++ DIGITS

abbrev NUL : Char := '\x00'

/-- The remainder and the quotient that a division by the base gives. -/
structure Division where
  rem : Int → Nat → Int
  quot : Int → Nat → Int

/-- The `do` loop, with a bound on its turns. -/
def digitLoop (div : Division) (base : Nat) : Nat → Int → List Char → Except Fault (List Char)
  | 0, _, _ => .error .unfinished
  | turns + 1, value, text =>
    let text := text ++ [digitTable.getD (35 + div.rem value base).toNat NUL]
    if div.quot value base ≠ 0 then digitLoop div base turns (div.quot value base) text
    else .ok text

/-- The `while` loop, which turns round the characters from `low` to `ptr`. -/
def turnRound : Nat → List Char → Nat → Nat → List Char
  | 0, text, _, _ => text
  | turns + 1, text, low, ptr =>
    if low < ptr then
      turnRound turns ((text.set low (text.getD ptr NUL)).set ptr (text.getD low NUL)) (low + 1)
        (ptr - 1)
    else text

/-- What the two functions have in common. A 64-bit number has at most 64 digits. -/
def itoaWith (div : Division) (value : Int) (base : Nat) : Except Fault (List Char) :=
  if base < 2 ∨ base > 36 then .ok [NUL]
  else
    let sign := if value < 0 ∧ base = 10 then ['-'] else []
    digitLoop div base 64 value sign >>= fun text =>
      .ok (turnRound text.length (text ++ [NUL]) sign.length (text.length - 1))

/-- `itoa` of the kernel. -/
def itoa : Int → Nat → Except Fault (List Char) :=
  itoaWith { rem := fun value base => value % 2 ^ 64 % base
             quot := fun value base => value % 2 ^ 64 / base }

/-- `itoa` of the user library. -/
def userItoa : Int → Nat → Except Fault (List Char) :=
  itoaWith { rem := fun value base => value.tmod base
             quot := fun value base => value.tdiv base }

/-! ## Reading back -/

/-- The number that a string of digits stands for. -/
def readDigits (base : Nat) (digits : List Char) : Nat :=
  Nat.ofDigits base (digits.reverse.map (DIGITS.idxOf ·))

/-- A buffer that reads back as the value: after a '-' where there has to be one, digits of the
base without a superfluous zero, then the NUL. -/
def ReadsBack (value : Int) (base : Nat) (buffer : List Char) : Prop :=
  ∃ digits, buffer = (if value < 0 ∧ base = 10 then ['-'] else []) ++ digits ++ [NUL] ∧
    digits ≠ [] ∧ (∀ c ∈ digits, DIGITS.idxOf c < base) ∧
    (digits.head? = some '0' → digits = ['0']) ∧
    readDigits base digits = if base = 10 then value.natAbs else (value % 2 ^ 64).toNat

/-! ## The digits of a number -/

/-- The digits of a number, the last one first. -/
def places (base n : Nat) : List Nat := if n = 0 then [0] else Nat.digits base n

/-- The number in the base. -/
def numeral (base n : Nat) : List Char := ((places base n).map (DIGITS.getD · NUL)).reverse

theorem places_step {base : Nat} (least : 2 ≤ base) (n : Nat) :
    places base n = n % base :: if n / base = 0 then [] else places base (n / base) := by
  by_cases zero : n = 0
  · simp [places, zero]
  · rw [places, if_neg zero, Nat.digits_def' least (Nat.pos_of_ne_zero zero)]
    by_cases last : n / base = 0
    · simp [last]
    · simp [places, last]

section Reading

variable {base n : Nat} (least : 2 ≤ base) (most : base ≤ 36)
include least

theorem places_lt : ∀ d ∈ places base n, d < base := by
  intro d inside
  by_cases zero : n = 0
  · simp only [places, zero, if_true, List.mem_singleton] at inside
    omega
  · rw [places, if_neg zero] at inside
    exact Nat.digits_lt_base least inside

include most

theorem idx_of_numeral : (numeral base n).reverse.map (DIGITS.idxOf ·) = places base n := by
  have inverse : ∀ d < 36, DIGITS.idxOf (DIGITS.getD d NUL) = d := by decide
  rw [numeral, List.reverse_reverse, List.map_map, List.map_congr_left, List.map_id]
  intro d inside
  exact inverse d (Nat.lt_of_lt_of_le (places_lt least d inside) most)

theorem read_numeral : readDigits base (numeral base n) = n := by
  rw [readDigits, idx_of_numeral least most, places]
  split
  · simp_all
  · exact Nat.ofDigits_digits base n

/-- What `numeral` gives is the text of a number. -/
theorem numeral_digits : numeral base n ≠ [] ∧ (∀ c ∈ numeral base n, DIGITS.idxOf c < base) ∧
    ((numeral base n).head? = some '0' → numeral base n = ['0']) := by
  have same := idx_of_numeral (n := n) least most
  refine ⟨fun empty => ?_, fun c inside => ?_, fun first => ?_⟩
  · rw [empty, places_step least] at same
    cases same
  · apply places_lt (n := n) least
    rw [← same]
    exact List.mem_map_of_mem (List.mem_reverse.mpr inside)
  · by_cases zero : n = 0
    · simp [numeral, places, zero, DIGITS]
    · -- the last of the places would be zero
      have last := congrArg List.getLast? same
      rw [List.getLast?_map, List.getLast?_reverse, first, places, if_neg zero,
        List.getLast?_eq_some_getLast (Nat.digits_ne_nil_iff_ne_zero.mpr zero)] at last
      exact absurd (Option.some.inj last).symm (Nat.getLast_digit_ne_zero base zero)

end Reading

/-! ## The two loops -/

/-- The characters between two places are turned round, and no other ones are touched. -/
theorem turn_round_eq (inner : List Char) (turns : Nat) (before after : List Char)
    (enough : inner.length ≤ turns) :
    turnRound turns (before ++ inner ++ after) before.length (before.length + inner.length - 1) =
      before ++ inner.reverse ++ after := by
  induction inner using List.bidirectionalRec generalizing turns before after with
  | nil => cases turns <;> simp [turnRound]
  | singleton c => cases turns <;> simp [turnRound]
  | cons_append first middle last ih =>
    obtain ⟨turns, rfl⟩ : ∃ rest, turns = rest + 1 :=
      ⟨turns - 1, by simp only [List.length_cons] at enough; omega⟩
    have length : (first :: (middle ++ [last])).length = middle.length + 2 := by simp
    have step := ih turns (before ++ [last]) (first :: after) (by omega)
    have swapped : (((before ++ first :: (middle ++ [last]) ++ after).set before.length last).set
        (before.length + middle.length + 1) first) =
        before ++ [last] ++ middle ++ first :: after := by
      rw [List.append_assoc, List.set_append_right _ _ (Nat.le_refl _), Nat.add_assoc]
      simp
    have firstAt : (before ++ first :: (middle ++ [last]) ++ after).getD before.length NUL =
        first := by simp [List.getD_eq_getElem?_getD]
    have lastAt : (before ++ first :: (middle ++ [last]) ++ after).getD
        (before.length + middle.length + 1) NUL = last := by
      simp [Nat.add_assoc]
    have place : before.length + (middle.length + 2) - 1 = before.length + middle.length + 1 := by
      omega
    rw [turnRound, length, place, firstAt, lastAt, swapped]
    have bounds :
        before.length + 1 + middle.length - 1 = before.length + middle.length + 1 - 1 := by omega
    rw [List.length_append, List.length_singleton, bounds] at step
    rw [step]
    simp

/-- A division finds the digits of the numbers that `magnitude` gives. -/
structure Division.Digits (div : Division) (base : Nat) (magnitude : Int → Nat) : Prop where
  digit : ∀ value, digitTable.getD (35 + div.rem value base).toNat NUL =
    DIGITS.getD (magnitude value % base) NUL
  quot : ∀ value, magnitude (div.quot value base) = magnitude value / base
  ends : ∀ value, div.quot value base = 0 ↔ magnitude value / base = 0

variable {div : Division} {base : Nat} {magnitude : Int → Nat}

theorem digit_loop_eq (digits : div.Digits base magnitude) (least : 2 ≤ base) (turns : Nat)
    (value : Int) (enough : magnitude value < 2 ^ turns) (positive : 0 < turns)
    (text : List Char) :
    digitLoop div base turns value text =
      .ok (text ++ (places base (magnitude value)).map (DIGITS.getD · NUL)) := by
  induction turns generalizing value text with
  | zero => omega
  | succ turns ih =>
    have half : magnitude value / base < 2 ^ turns := by
      rw [Nat.div_lt_iff_lt_mul (by omega)]
      exact Nat.lt_of_lt_of_le enough (Nat.mul_le_mul_left _ least)
    rw [digitLoop, digits.digit, places_step least]
    by_cases last : magnitude value / base = 0
    · simp [(digits.ends value).mpr last, last]
    · have goes : div.quot value base ≠ 0 := fun zero => last ((digits.ends value).mp zero)
      have more : 0 < turns := by
        rcases Nat.eq_zero_or_pos turns with rfl | more
        · exact absurd (Nat.lt_one_iff.mp half) last
        · exact more
      rw [if_pos goes, ih _ (by rwa [digits.quot]) more, digits.quot, if_neg last]
      simp

/-- The text that a function with such a division writes. -/
theorem itoa_with_eq (magnitude : Int → Nat) (digits : div.Digits base magnitude)
    (least : 2 ≤ base) (most : base ≤ 36) (value : Int) (enough : magnitude value < 2 ^ 64) :
    itoaWith div value base = .ok ((if value < 0 ∧ base = 10 then ['-'] else []) ++
      numeral base (magnitude value) ++ [NUL]) := by
  rw [itoaWith, if_neg (by omega)]
  dsimp only
  rw [digit_loop_eq digits least 64 value enough (by decide), bind_ok]
  generalize (if value < 0 ∧ base = 10 then ['-'] else []) = sign
  generalize written : (places base (magnitude value)).map (DIGITS.getD · NUL) = text
  have turned := turn_round_eq text (sign ++ text).length sign [NUL] (by simp)
  rw [← List.length_append] at turned
  rw [turned, numeral, written]

/-! ## What the two functions write -/

/-- The right half of the table holds the digits, the left half the same from the middle on. -/
theorem digit_table_eq : ∀ d < 36, digitTable.getD (35 + d) NUL = DIGITS.getD d NUL ∧
    digitTable.getD (35 - d) NUL = DIGITS.getD d NUL := by
  decide

theorem unsigned_cases (value : Int) : ∃ n : Nat, n < 2 ^ 64 ∧ value % 2 ^ 64 = n :=
  ⟨(value % 2 ^ 64).toNat, by omega, by omega⟩

section Bases

variable {value : Int} (least : 2 ≤ base) (most : base ≤ 36)
include least most

/-- The kernel writes the digits of the value as an unsigned number. -/
theorem itoa_eq (value : Int) : itoa value base = .ok ((if value < 0 ∧ base = 10 then ['-'] else [])
    ++ numeral base (value % 2 ^ 64).toNat ++ [NUL]) := by
  refine itoa_with_eq (fun value => (value % 2 ^ 64).toNat) ⟨?_, ?_, ?_⟩ least most value (by omega)
  · intro value
    obtain ⟨n, -, unsigned⟩ := unsigned_cases value
    have digit : n % base < 36 := Nat.lt_of_lt_of_le (Nat.mod_lt n (by omega)) most
    have place : (35 + value % 2 ^ 64 % base).toNat = 35 + n % base := by
      rw [unsigned]
      omega
    rw [place, (digit_table_eq _ digit).1, unsigned]
    rfl
  · intro value
    obtain ⟨n, bound, unsigned⟩ := unsigned_cases value
    have smaller : n / base ≤ n := Nat.div_le_self n base
    dsimp only
    rw [unsigned, ← Int.natCast_div, Int.toNat_natCast]
    generalize n / base = quotient at smaller
    omega
  · intro value
    obtain ⟨n, -, unsigned⟩ := unsigned_cases value
    dsimp only
    rw [unsigned, ← Int.natCast_div, Int.toNat_natCast, Int.natCast_eq_zero]

/-- The user library writes the digits of the value without its sign. -/
theorem user_itoa_eq (range : value.natAbs < 2 ^ 64) : userItoa value base =
    .ok ((if value < 0 ∧ base = 10 then ['-'] else []) ++ numeral base value.natAbs ++ [NUL]) := by
  refine itoa_with_eq Int.natAbs ⟨?_, ?_, ?_⟩ least most value range
  · intro value
    have digit : value.natAbs % base < 36 := Nat.lt_of_lt_of_le (Nat.mod_lt _ (by omega)) most
    have size : (value.tmod base).natAbs = value.natAbs % base := Int.natAbs_tmod value base
    rcases Int.le_total 0 (value.tmod base) with right | left
    · have place : (35 + value.tmod base).toNat = 35 + value.natAbs % base := by omega
      rw [place, (digit_table_eq _ digit).1]
    · have place : (35 + value.tmod base).toNat = 35 - value.natAbs % base := by omega
      rw [place, (digit_table_eq _ digit).2]
  · exact fun value => Int.natAbs_tdiv value base
  · intro value
    rw [← Int.natAbs_eq_zero, Int.natAbs_tdiv]
    rfl

/-- The signs of two texts agree, so the digits do. -/
theorem same_number {sign : List Char} {n k : Nat}
    (same : sign ++ numeral base n ++ [NUL] = sign ++ numeral base k ++ [NUL]) : n = k := by
  have digits : numeral base n = numeral base k :=
    List.append_cancel_left (List.append_cancel_right same)
  rw [← read_numeral (n := n) least most, digits, read_numeral least most]

/-- The text of the kernel reads back as the value, and the user library writes the same, exactly
for the values that are not negative and for the least one. -/
theorem itoa_reads_back_iff (low : -2 ^ 63 ≤ value) (high : value < 2 ^ 63) :
    (∃ buffer, itoa value base = .ok buffer ∧ ReadsBack value base buffer ∧
      userItoa value base = .ok buffer) ↔ 0 ≤ value ∨ value = -2 ^ 63 := by
  rw [itoa_eq least most, user_itoa_eq least most (by omega)]
  constructor
  · rintro ⟨buffer, kernel, -, user⟩
    have magnitudes := same_number least most (Except.ok.inj (kernel.trans user.symm))
    omega
  · intro fine
    have magnitudes : value.natAbs = (value % 2 ^ 64).toNat := by omega
    obtain ⟨nonempty, proper, leading⟩ := numeral_digits (n := value.natAbs) least most
    rw [← magnitudes]
    refine ⟨_, rfl, ⟨_, rfl, nonempty, proper, leading, ?_⟩, rfl⟩
    rw [read_numeral least most, ← magnitudes, ite_self]

end Bases

/-- Of -1 the kernel writes "-18446744073709551615" and the user library "-1". -/
theorem minus_one_misread :
    itoa (-1) 10 = .ok ['-', '1', '8', '4', '4', '6', '7', '4', '4', '0', '7', '3', '7', '0', '9',
      '5', '5', '1', '6', '1', '5', NUL] ∧
    ¬ ∃ buffer, itoa (-1) 10 = .ok buffer ∧ ReadsBack (-1) 10 buffer ∧
      userItoa (-1) 10 = .ok buffer := by
  refine ⟨by decide, ?_⟩
  rintro ⟨buffer, kernel, -, user⟩
  exact absurd (kernel.trans user.symm) (by decide)

/-- The number 2022 in base 10. -/
theorem year_reads_back : ∃ buffer, itoa 2022 10 = .ok buffer ∧ ReadsBack 2022 10 buffer ∧
    userItoa 2022 10 = .ok buffer :=
  (itoa_reads_back_iff (by decide) (by decide) (by decide) (by decide)).mpr (.inl (by decide))

end Mftt
