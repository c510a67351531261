import Mathlib.Data.Set.Insert
import Mathlib.Logic.Function.Basic
import Mftt.Fault
import Mftt.PowerOfTwo

/-!
# Bit sets in memory

`lib/bitset.h` works on arrays of 32-bit words. A set is the address of its
first word, so two sets whose addresses are close share words; the laws below
are therefore about one bit of one word, and say nothing about which set the
word was reached from.
-/

namespace Mftt

open Function BitVec

/-- The 32-bit words of memory, by byte address. -/
abbrev Words := Nat → BitVec 32

/-- `check_bit`. -/
def checkBit (words : Words) (bitarray i : Nat) : Bool :=
  (words (bitarray + 4 * (i / 32)) &&& (1#32 <<< (i % 32))) != 0#32

/-- `xor_bit`. -/
def xorBit (words : Words) (bitarray i : Nat) (x : BitVec 32) : Words :=
  update words (bitarray + 4 * (i / 32))
    (words (bitarray + 4 * (i / 32)) ^^^ (x <<< (i % 32)))

/-- Word, and bit of that word, that hold the `i`-th bit of the set at `bitarray`. -/
def bitPlace (bitarray i : Nat) : Nat × Nat := (bitarray + 4 * (i / 32), i % 32)

/-- The test reads the one bit at its place. -/
theorem check_bit_eq (words : Words) (bitarray i : Nat) :
    checkBit words bitarray i =
      (words (bitPlace bitarray i).1).getLsbD (bitPlace bitarray i).2 := by
  have nonzero : BitVec.twoPow 32 (i % 32) ≠ 0#32 := by
    intro zero
    have bit := congrArg (fun word => word.getLsbD (i % 32)) zero
    simp [Nat.mod_lt i (by decide : 0 < 32)] at bit
  simp only [checkBit, bitPlace, ← twoPow_eq, and_twoPow]
  cases (words (bitarray + 4 * (i / 32))).getLsbD (i % 32) <;> simp [nonzero]

/-- Flipping a bit with the operand one inverts the tested bit at the same place
and leaves every bit at another place as it was, whatever sets the two places
were reached from. -/
theorem check_bit_xor_bit (words : Words) (bitarray i other j : Nat) :
    checkBit (xorBit words bitarray i 1#32) other j =
      if bitPlace other j = bitPlace bitarray i then !checkBit words other j
      else checkBit words other j := by
  simp only [check_bit_eq]
  by_cases sameWord : other + 4 * (j / 32) = bitarray + 4 * (i / 32)
  · have bound : i % 32 < 32 := Nat.mod_lt i (by decide)
    simp only [xorBit, bitPlace, sameWord, ← twoPow_eq]
    by_cases sameBit : j % 32 = i % 32
    · simp [sameBit, bound]
    · simp [sameBit, Ne.symm sameBit]
  · simp [xorBit, bitPlace, sameWord]

/-- `set_bit`. -/
def setBit (words : Words) (bitarray i : Nat) : Words :=
  update words (bitarray + 4 * (i / 32))
    (words (bitarray + 4 * (i / 32)) ||| (1#32 <<< (i % 32)))

/-- `clear_bit`. -/
def clearBit (words : Words) (bitarray i : Nat) : Words :=
  update words (bitarray + 4 * (i / 32))
    (words (bitarray + 4 * (i / 32)) &&& ~~~(1#32 <<< (i % 32)))

theorem check_bit_update (words : Words) (bitarray i j : Nat) (word : BitVec 32) :
    checkBit (update words (bitarray + 4 * (i / 32)) word) bitarray j =
      if j / 32 = i / 32 then word.getLsbD (j % 32) else checkBit words bitarray j := by
  rw [check_bit_eq, check_bit_eq, bitPlace]
  split
  · rename_i sameWord
    rw [sameWord, update_self]
  · have apart : bitarray + 4 * (j / 32) ≠ bitarray + 4 * (i / 32) := by omega
    rw [update_of_ne apart]

theorem check_bit_set_bit (words : Words) (bitarray i j : Nat) :
    checkBit (setBit words bitarray i) bitarray j =
      (decide (j = i) || checkBit words bitarray j) := by
  have bound : i % 32 < 32 := Nat.mod_lt i (by decide)
  rw [setBit, check_bit_update, check_bit_eq, bitPlace]
  split
  · rename_i sameWord
    have same : j = i ↔ i % 32 = j % 32 := by omega
    simp only [sameWord, getLsbD_or, ← twoPow_eq, getLsbD_twoPow, bound,
      decide_true, Bool.true_and, same, Bool.or_comm]
  · have different : j ≠ i := by omega
    simp [different]

theorem check_bit_clear_bit (words : Words) (bitarray i j : Nat) :
    checkBit (clearBit words bitarray i) bitarray j =
      (decide (j ≠ i) && checkBit words bitarray j) := by
  have bound : i % 32 < 32 := Nat.mod_lt i (by decide)
  have inside : j % 32 < 32 := Nat.mod_lt j (by decide)
  rw [clearBit, check_bit_update, check_bit_eq, bitPlace]
  split
  · rename_i sameWord
    have same : j = i ↔ i % 32 = j % 32 := by omega
    simp only [sameWord, getLsbD_and, getLsbD_not, ← twoPow_eq,
      getLsbD_twoPow, bound, inside, decide_true, Bool.true_and, same,
      Bool.and_comm, decide_not]
  · have different : j ≠ i := by omega
    simp [different]

/-! ## The first bit that is not set -/

/-- `MultiplyDeBruijnBitPosition`. -/
def multiplyDeBruijnBitPosition : List Nat :=
  [0, 1, 28, 2, 29, 14, 24, 3, 30, 22, 20, 15, 25, 17, 4, 8, 31, 27, 13, 23, 21, 19, 16, 7, 26,
    12, 18, 6, 11, 5, 10, 9]

/-- The position that the table gives for the lowest set bit of a word. -/
def lowestSet (c : BitVec 32) : Nat :=
  multiplyDeBruijnBitPosition.getD (((c &&& -c) * 0x077CB531#32) >>> 27).toNat 0

/-- `set_first_unset_bit` on the words from the `i`-th on, of which `left` are left. -/
def setFirstUnsetBit (words : Words) (bitarray : Nat) : Nat → Nat → Nat × Words
  | 0, _ => (0xFFFFFFFFFFFFFFFF, words)
  | left + 1, i =>
    let word := words (bitarray + 4 * i)
    if word = 0xFFFFFFFF#32 then setFirstUnsetBit words bitarray left (i + 1)
    else
      let r := lowestSet (~~~word)
      (r + i * 32, update words (bitarray + 4 * i) (word ||| (1#32 <<< r)))

/-- The table inverts the multiplication on every power of two. -/
theorem table_two_pow : ∀ r < 32, multiplyDeBruijnBitPosition.getD
    ((BitVec.twoPow 32 r * 0x077CB531#32) >>> 27).toNat 0 = r := by
  decide

theorem lowest_set_eq (c : BitVec 32) (nonzero : c ≠ 0#32) : lowestSet c = c.ctz.toNat := by
  have bound : c.ctz.toNat < 32 :=
    lt_of_getLsbD (getLsbD_true_ctz_of_ne_zero nonzero)
  rw [lowestSet, and_neg_eq c nonzero, table_two_pow _ bound]

/-- The first bit that is clear is set, or all bits are set and no word changes. -/
theorem set_first_unset_bit_spec (words : Words) (bitarray left i : Nat) :
    (∃ r, (setFirstUnsetBit words bitarray left i).1 = r ∧ i * 32 ≤ r ∧ r < (i + left) * 32 ∧
      checkBit words bitarray r = false ∧
      (∀ j, i * 32 ≤ j → j < r → checkBit words bitarray j = true) ∧
      (setFirstUnsetBit words bitarray left i).2 = setBit words bitarray r) ∨
    ((setFirstUnsetBit words bitarray left i).1 = 0xFFFFFFFFFFFFFFFF ∧
      (∀ j, i * 32 ≤ j → j < (i + left) * 32 → checkBit words bitarray j = true) ∧
      (setFirstUnsetBit words bitarray left i).2 = words) := by
  induction left generalizing i with
  | zero => exact .inr ⟨rfl, fun j above below => by omega, rfl⟩
  | succ left ih =>
    -- Within the word the bits are those of the word.
    have inWord : ∀ j, i * 32 ≤ j → j < (i + 1) * 32 →
        checkBit words bitarray j = (words (bitarray + 4 * i)).getLsbD (j - i * 32) := by
      intro j above below
      have quotient : j / 32 = i := by omega
      have remainder : j % 32 = j - i * 32 := by omega
      rw [check_bit_eq, bitPlace, quotient, remainder]
    rw [setFirstUnsetBit]
    split
    case isTrue full =>
      have ones : ∀ j, i * 32 ≤ j → j < (i + 1) * 32 → checkBit words bitarray j = true := by
        intro j above below
        rw [inWord j above below, full, show 0xFFFFFFFF#32 = BitVec.allOnes 32 from rfl,
          getLsbD_allOnes]
        exact decide_eq_true (by omega)
      rcases ih (i + 1) with ⟨r, eq, above, below, clear, lower, sets⟩ | ⟨eq, all, sets⟩
      · refine .inl ⟨r, eq, by omega, by omega, clear, fun j low high => ?_, sets⟩
        by_cases first : j < (i + 1) * 32
        · exact ones j low first
        · exact lower j (by omega) high
      · refine .inr ⟨eq, fun j low high => ?_, sets⟩
        by_cases first : j < (i + 1) * 32
        · exact ones j low first
        · exact all j (by omega) (by omega)
    case isFalse partly =>
      have nonzero : ~~~(words (bitarray + 4 * i)) ≠ 0#32 := by
        intro zero
        apply partly
        rw [← not_not (b := words (bitarray + 4 * i)), zero]
        rfl
      have set := getLsbD_true_ctz_of_ne_zero nonzero
      have lowest := lowest_set_eq _ nonzero
      generalize place : lowestSet (~~~(words (bitarray + 4 * i))) = r at *
      rw [← lowest] at set
      have bound : r < 32 := lt_of_getLsbD set
      have quotient : (r + i * 32) / 32 = i := by omega
      have remainder : (r + i * 32) % 32 = r := by omega
      refine .inl ⟨r + i * 32, rfl, by omega, by omega, ?_, fun j low high => ?_, ?_⟩
      · rw [inWord _ (by omega) (by omega)]
        simpa [bound] using set
      · rw [inWord j low (by omega)]
        have below : j - i * 32 < (~~~(words (bitarray + 4 * i))).ctz.toNat := by omega
        have clear := getLsbD_false_of_lt_ctz below
        have inside : j - i * 32 < 32 := by omega
        simpa [inside] using clear
      · rw [setBit, quotient, remainder]

/-! ## Allocating indices -/

/-- What `set_first_unset_bit` returns when it found no bit. -/
abbrev NO_BIT : Nat := 0xFFFFFFFFFFFFFFFF

/-- A call by a user of the set `bitarray`. -/
inductive BitCall where
  | setFirstUnset
  | clear (i : Nat)

/-- Along a sequence of calls no index is returned that is allocated at that time. Allocated are
the indices in `held`, to which a call adds the index it returns and from which a call of
`clear_bit` takes one. -/
def NeverTwice (bitarray size : Nat) : List BitCall → Words → Set Nat → Prop
  | [], _, _ => True
  | .clear i :: rest, words, held =>
    NeverTwice bitarray size rest (clearBit words bitarray i) (held \ {i})
  | .setFirstUnset :: rest, words, held =>
    let (r, words) := setFirstUnsetBit words bitarray size 0
    if r = NO_BIT then NeverTwice bitarray size rest words held
    else r ∉ held ∧ NeverTwice bitarray size rest words (insert r held)

theorem never_twice_of_set (bitarray size : Nat) (calls : List BitCall) (words : Words)
    (held : Set Nat) (set : ∀ i ∈ held, checkBit words bitarray i = true) :
    NeverTwice bitarray size calls words held := by
  induction calls generalizing words held with
  | nil => trivial
  | cons call rest ih =>
    cases call with
    | clear i =>
      apply ih
      rintro j ⟨inside, other⟩
      rw [check_bit_clear_bit, set j inside, Bool.and_true]
      exact decide_eq_true other
    | setFirstUnset =>
      have spec := set_first_unset_bit_spec words bitarray size 0
      rw [NeverTwice]
      generalize setFirstUnsetBit words bitarray size 0 = result at spec
      obtain ⟨r, after⟩ := result
      dsimp only at spec ⊢
      rcases spec with ⟨_, rfl, -, -, clear, -, rfl⟩ | ⟨rfl, -, rfl⟩
      · have kept : ∀ i ∈ held, checkBit (setBit words bitarray r) bitarray i = true := by
          intro i inside
          rw [check_bit_set_bit, set i inside, Bool.or_true]
        split
        · exact ih _ _ kept
        · refine ⟨fun inside => ?_, ih _ _ ?_⟩
          · rw [set r inside] at clear
            cases clear
          · rintro i (rfl | inside)
            · rw [check_bit_set_bit, decide_eq_true rfl, Bool.true_or]
            · exact kept i inside
      · exact ih _ _ set

/-- `set_first_unset_bit` returns the least index whose bit is clear and sets this bit only; it
returns `NO_BIT` and changes nothing if all bits are set. So whatever is allocated at first, no
sequence of calls returns an index that is allocated. An index is a 64-bit number for every array
of up to 2^59 words, which is more than the addresses of the machine allow. -/
theorem set_first_unset_bit_allocates (words : Words) (bitarray size : Nat) :
    (∀ least, least < 32 * size → checkBit words bitarray least = false →
      (∀ j < least, checkBit words bitarray j = true) →
      (setFirstUnsetBit words bitarray size 0).1 = least ∧
      (setFirstUnsetBit words bitarray size 0).2 = setBit words bitarray least ∧
      checkBit (setBit words bitarray least) bitarray least = true ∧
      (∀ j ≠ least, checkBit (setBit words bitarray least) bitarray j = checkBit words bitarray j) ∧
      (∀ address ≠ bitarray + 4 * (least / 32),
        setBit words bitarray least address = words address) ∧
      (size ≤ 2 ^ 59 → least < 2 ^ 64)) ∧
    ((∀ j < 32 * size, checkBit words bitarray j = true) →
      setFirstUnsetBit words bitarray size 0 = (NO_BIT, words)) ∧
    ∀ calls, NeverTwice bitarray size calls words {i | checkBit words bitarray i = true} := by
  have spec := set_first_unset_bit_spec words bitarray size 0
  refine ⟨fun least inside clear lower => ?_, fun full => ?_,
    fun calls => never_twice_of_set bitarray size calls words _ fun _ set => set⟩
  · have found : (setFirstUnsetBit words bitarray size 0).1 = least ∧
        (setFirstUnsetBit words bitarray size 0).2 = setBit words bitarray least := by
      rcases spec with ⟨r, eq, -, -, clearThere, before, sets⟩ | ⟨-, all, -⟩
      · obtain rfl : r = least := by
          rcases Nat.lt_trichotomy r least with less | same | more
          · rw [lower r less] at clearThere
            cases clearThere
          · exact same
          · rw [before least (by omega) more] at clear
            cases clear
        exact ⟨eq, sets⟩
      · rw [all least (by omega) (by omega)] at clear
        cases clear
    refine ⟨found.1, found.2, by simp [check_bit_set_bit], fun j other => ?_,
      fun address other => update_of_ne other _ _, fun few => by omega⟩
    simp [check_bit_set_bit, other]
  · rcases spec with ⟨r, -, -, inside, clear, -, -⟩ | ⟨eq, -, same⟩
    · rw [full r (by omega)] at clear
      cases clear
    · exact Prod.ext eq same

end Mftt
