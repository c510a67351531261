import Mathlib.Algebra.Group.Nat.Defs
import Mathlib.Data.Nat.Log
import Mathlib.Data.Nat.Size
import Mathlib.Order.Bounds.Basic

/-!
# Orders of page counts

`page_alloc` and `page_free` turn a number of pages into an order with two
word-level routines: `round_up_power_2` smears the highest set bit of `x - 1`
over all lower bits and adds one, and `trailing_zero` finds the position of a
single set bit through a de Bruijn multiplication. Together they compute the
rounded-up binary logarithm; a count of zero and a count above `2 ^ 63` wrap
around to zero, whose position is given as 64. `round_down_power_2` smears the
highest set bit of `x` itself and takes away all the bits below it.
-/

namespace Mftt

open BitVec

/-- Double the reach of a smeared word: or it with itself shifted down. -/
def orShift (x : BitVec 64) (distance : Nat) : BitVec 64 := x ||| (x >>> distance)

/-- The shifts by 1, 2, 4, 8, 16 and 32 that both rounding routines make. -/
def smear (x : BitVec 64) : BitVec 64 :=
  orShift (orShift (orShift (orShift (orShift (orShift x 1) 2) 4) 8) 16) 32

/-- `round_up_power_2`. -/
def roundUpPower2 (x : BitVec 64) : BitVec 64 := smear (x - 1#64) + 1#64

/-- `round_down_power_2`. -/
def roundDownPower2 (x : BitVec 64) : BitVec 64 := smear x - (smear x >>> 1)

/-- The lookup table of `trailing_zero`. -/
def debruijnCtz64 : List Nat :=
  [63, 0,  1,  52, 2,  6,  53, 26, 3,  37, 40, 7,  33, 54, 47, 27,
   61, 4,  38, 45, 43, 41, 21, 8,  23, 34, 58, 55, 48, 17, 28, 10,
   62, 51, 5,  25, 36, 39, 32, 46, 60, 44, 42, 20, 22, 57, 16, 9,
   50, 24, 35, 31, 59, 19, 56, 15, 49, 30, 18, 14, 29, 13, 12, 11]

/-- `trailing_zero`. The leading summand is C's `!x`, one exactly at zero. -/
def trailingZero (x : BitVec 64) : Nat :=
  (if x = 0#64 then 1 else 0) +
    debruijnCtz64.getD (((x &&& -x) * 0x045FBAC7992A70DA#64) >>> 58).toNat 0

/-- The order `page_alloc` and `page_free` compute for a page count of type `size_t`. -/
def blockOrder (pages : Nat) : Nat := trailingZero (roundUpPower2 (BitVec.ofNat 64 pages))

/-- Bit `i` of `x` is the disjunction of the `reach` bits of `y` from `i` on. -/
def Smeared (y x : BitVec 64) (reach : Nat) : Prop :=
  ∀ i, x.getLsbD i = true ↔ ∃ j, i ≤ j ∧ j < i + reach ∧ y.getLsbD j = true

theorem smeared_or_shift {y x : BitVec 64} {reach : Nat} (smeared : Smeared y x reach) :
    Smeared y (orShift x reach) (reach + reach) := by
  intro i
  simp only [orShift, getLsbD_or, getLsbD_ushiftRight, Bool.or_eq_true]
  rw [smeared i, smeared (reach + i)]
  constructor
  · rintro (⟨j, low, high, set⟩ | ⟨j, low, high, set⟩)
    · exact ⟨j, low, by omega, set⟩
    · exact ⟨j, by omega, by omega, set⟩
  · rintro ⟨j, low, high, set⟩
    by_cases near : j < i + reach
    · exact .inl ⟨j, low, near, set⟩
    · exact .inr ⟨j, by omega, by omega, set⟩

/-- Six doublings reach every bit of the word. -/
theorem smear_smeared (y : BitVec 64) : Smeared y (smear y) 64 := by
  have start : Smeared y y 1 := by
    intro i
    constructor
    · intro set
      exact ⟨i, le_refl i, by omega, set⟩
    · rintro ⟨j, low, high, set⟩
      have same : j = i := by omega
      exact same ▸ set
  exact smeared_or_shift (smeared_or_shift (smeared_or_shift (smeared_or_shift
    (smeared_or_shift (smeared_or_shift start)))))

/-- The smeared word has exactly the bits below the size of the original set. -/
theorem smear_to_nat (y : BitVec 64) : (smear y).toNat = 2 ^ Nat.size y.toNat - 1 := by
  apply Nat.eq_of_testBit_eq
  intro i
  have bits : (smear y).toNat.testBit i = true ↔ i < Nat.size y.toNat := by
    change (smear y).getLsbD i = true ↔ _
    rw [smear_smeared y i, Nat.lt_size]
    constructor
    · rintro ⟨j, low, _, set⟩
      have reached : 2 ^ j ≤ y.toNat := Nat.ge_two_pow_of_testBit set
      exact le_trans (Nat.pow_le_pow_right (by decide) low) reached
    · intro large
      obtain ⟨j, low, set⟩ := Nat.exists_ge_and_testBit_of_ge_two_pow large
      have inside : j < 64 := by
        by_contra outside
        have reached : 2 ^ j ≤ y.toNat := Nat.ge_two_pow_of_testBit set
        have grown : 2 ^ 64 ≤ 2 ^ j := Nat.pow_le_pow_right (by decide) (by omega)
        omega
      exact ⟨j, low, by omega, set⟩
  rw [Nat.testBit_two_pow_sub_one]
  by_cases inside : i < Nat.size y.toNat
  · simp [inside, bits.mpr inside]
  · simp only [inside]
    exact Bool.eq_false_iff.mpr (fun set => inside (bits.mp set))

theorem size_pred_eq_clog {n : Nat} (positive : 1 ≤ n) : Nat.size (n - 1) = Nat.clog 2 n := by
  apply eq_of_forall_ge_iff
  intro bound
  rw [Nat.size_le, Nat.clog_le_iff_le_pow (by decide)]
  omega

/-- A word and its negative have the lowest set bit in common and no other. -/
theorem and_neg_eq {w : Nat} (c : BitVec w) (nonzero : c ≠ 0#w) :
    c &&& -c = BitVec.twoPow w c.ctz.toNat := by
  have set := getLsbD_true_ctz_of_ne_zero nonzero
  have bound : c.ctz.toNat < w := lt_of_getLsbD set
  apply eq_of_getLsbD_eq
  intro i inside
  rw [getLsbD_and, getLsbD_neg, getLsbD_twoPow]
  rcases Nat.lt_trichotomy i c.ctz.toNat with low | rfl | high
  · have clear : c.getLsbD i = false := getLsbD_false_of_lt_ctz low
    simp [clear, Nat.ne_of_gt low]
  · have none : ¬ ∃ j < c.ctz.toNat, c.getLsbD j = true := by
      rintro ⟨j, low, one⟩
      rw [getLsbD_false_of_lt_ctz low] at one
      cases one
    simp [set, none, bound]
  · have below : ∃ j < i, c.getLsbD j = true := ⟨_, high, set⟩
    cases bit : c.getLsbD i <;> simp [inside, below, Nat.ne_of_lt high]

/-- The table inverts the multiplication on every power of two. -/
theorem debruijn_two_pow : ∀ k < 64, debruijnCtz64.getD
    ((BitVec.twoPow 64 k * 0x045FBAC7992A70DA#64) >>> 58).toNat 0 = k := by
  decide

/-- The position of the lowest set bit is the number of zero bits behind it. -/
theorem trailing_zero_eq_ctz (y : BitVec 64) (nonzero : y ≠ 0#64) :
    trailingZero y = y.ctz.toNat := by
  have bound : y.ctz.toNat < 64 :=
    lt_of_getLsbD (getLsbD_true_ctz_of_ne_zero nonzero)
  rw [trailingZero, if_neg nonzero, Nat.zero_add, and_neg_eq y nonzero, debruijn_two_pow _ bound]

/-- On a single set bit the de Bruijn lookup returns its position. -/
theorem trailing_zero_two_pow (k : Nat) (inside : k < 64) :
    trailingZero (BitVec.twoPow 64 k) = k := by
  have set : (BitVec.twoPow 64 k).getLsbD k = true := by simp [inside]
  have nonzero : BitVec.twoPow 64 k ≠ 0#64 := by
    intro zero
    rw [zero, getLsbD_zero] at set
    cases set
  have lowest := getLsbD_true_ctz_of_ne_zero nonzero
  rw [getLsbD_twoPow, Bool.and_eq_true, decide_eq_true_eq, decide_eq_true_eq] at lowest
  rw [trailing_zero_eq_ctz _ nonzero]
  exact lowest.2.symm

theorem round_up_power_2_eq (x : BitVec 64) (positive : 1 ≤ x.toNat) (bounded : x.toNat ≤ 2 ^ 63) :
    Nat.clog 2 x.toNat < 64 ∧ roundUpPower2 x = BitVec.twoPow 64 (Nat.clog 2 x.toNat) := by
  have small : Nat.clog 2 x.toNat ≤ 63 := (Nat.clog_le_iff_le_pow (by decide)).mpr bounded
  have before : (x - 1#64).toNat = x.toNat - 1 := by
    rw [toNat_sub, toNat_ofNat]
    omega
  have one : 1 ≤ 2 ^ Nat.clog 2 x.toNat := Nat.one_le_two_pow
  refine ⟨by omega, eq_of_toNat_eq ?_⟩
  rw [roundUpPower2, toNat_add, smear_to_nat, before, size_pred_eq_clog positive,
    toNat_twoPow, toNat_ofNat]
  rw [show 2 ^ Nat.clog 2 x.toNat - 1 + 1 % 2 ^ 64 = 2 ^ Nat.clog 2 x.toNat by omega]

theorem round_down_power_2_eq (x : BitVec 64) (nonzero : x ≠ 0#64) :
    ∃ k, (roundDownPower2 x).toNat = 2 ^ k ∧ 2 ^ k ≤ x.toNat ∧ x.toNat < 2 ^ (k + 1) := by
  have positive : 0 < Nat.size x.toNat := by
    rw [Nat.size_pos, Nat.pos_iff_ne_zero]
    exact fun zero => nonzero (eq_of_toNat_eq zero)
  obtain ⟨k, size⟩ : ∃ k, Nat.size x.toNat = k + 1 := ⟨Nat.size x.toNat - 1, by omega⟩
  refine ⟨k, ?_, Nat.lt_size.mp (by omega), size ▸ Nat.lt_size_self x.toNat⟩
  have smeared := smear_to_nat x
  have half : (smear x >>> 1).toNat = 2 ^ k - 1 := by
    rw [toNat_ushiftRight, smeared, size]
    omega
  have one : 1 ≤ 2 ^ k := Nat.one_le_two_pow
  rw [size] at smeared
  rw [roundDownPower2, toNat_sub_of_le (by rw [le_def]; omega)]
  omega

/-- From one to `2 ^ 63`, `round_up_power_2` gives the least power of two from `x` on and
`trailing_zero` of it the rounded-up logarithm. On all words but zero, `trailing_zero` counts
the zero bits behind the last one, and `round_down_power_2` gives the greatest power of two up
to `x`. -/
theorem orders_computed (x : BitVec 64) (nonzero : x ≠ 0#64) :
    (x.toNat ≤ 2 ^ 63 →
      IsLeast {p | x.toNat ≤ p ∧ ∃ k, p = 2 ^ k} (roundUpPower2 x).toNat ∧
      trailingZero (roundUpPower2 x) = Nat.clog 2 x.toNat) ∧
    trailingZero x = x.ctz.toNat ∧
    IsGreatest {p | p ≤ x.toNat ∧ ∃ k, p = 2 ^ k} (roundDownPower2 x).toNat := by
  refine ⟨fun bounded => ?_, trailing_zero_eq_ctz x nonzero, ?_⟩
  · have positive : 1 ≤ x.toNat :=
      Nat.one_le_iff_ne_zero.mpr (fun zero => nonzero (eq_of_toNat_eq zero))
    obtain ⟨small, rounded⟩ := round_up_power_2_eq x positive bounded
    have word : (roundUpPower2 x).toNat = 2 ^ Nat.clog 2 x.toNat := by
      rw [rounded, toNat_twoPow]
      exact Nat.mod_eq_of_lt (Nat.pow_lt_pow_right (by decide) small)
    refine ⟨⟨⟨?_, _, word⟩, ?_⟩, by rw [rounded, trailing_zero_two_pow _ small]⟩
    · rw [word]
      exact Nat.le_pow_clog (by decide) x.toNat
    · rintro p ⟨above, k, rfl⟩
      rw [word]
      exact Nat.pow_le_pow_right (by decide) ((Nat.clog_le_iff_le_pow (by decide)).mpr above)
  · obtain ⟨k, word, low, high⟩ := round_down_power_2_eq x nonzero
    refine ⟨⟨word ▸ low, k, word⟩, ?_⟩
    rintro p ⟨below, j, rfl⟩
    have order : j < k + 1 :=
      (Nat.pow_lt_pow_iff_right (by decide : 1 < 2)).mp (Nat.lt_of_le_of_lt below high)
    rw [word]
    exact Nat.pow_le_pow_right (by decide) (by omega)

/-- Five pages are an allocation of order three. -/
theorem orders_of_five :
    IsLeast {p | 5 ≤ p ∧ ∃ k, p = 2 ^ k} 8 ∧ trailingZero 8#64 = Nat.clog 2 5 :=
  (orders_computed 5#64 (by decide)).1 (by decide)

/-- On counts from one to `2 ^ 63` the computed order is the rounded-up logarithm. -/
theorem block_order_eq_clog {pages : Nat} (positive : 1 ≤ pages) (bounded : pages ≤ 2 ^ 63) :
    blockOrder pages = Nat.clog 2 pages := by
  have same : (BitVec.ofNat 64 pages).toNat = pages := by
    rw [toNat_ofNat]
    omega
  obtain ⟨small, rounded⟩ := round_up_power_2_eq (BitVec.ofNat 64 pages) (by omega) (by omega)
  rw [blockOrder, rounded, trailing_zero_two_pow _ small, same]

/-- Counts whose rounding wraps around are given the order 64. -/
theorem block_order_of_wrap {pages : Nat} (wrap : pages = 0 ∨ 2 ^ 63 < pages)
    (bounded : pages < 2 ^ 64) : blockOrder pages = 64 := by
  rcases wrap with rfl | large
  · decide
  · have before : (BitVec.ofNat 64 pages - 1#64).toNat = pages - 1 := by
      rw [toNat_sub]
      simp only [toNat_ofNat]
      omega
    have size : Nat.size (pages - 1) = 64 := by
      apply le_antisymm
      · rw [Nat.size_le]
        omega
      · rw [Nat.succ_le_iff, Nat.lt_size]
        omega
    have rounded : roundUpPower2 (BitVec.ofNat 64 pages) = 0#64 := by
      apply eq_of_toNat_eq
      rw [roundUpPower2, toNat_add, smear_to_nat, before, size]
      rfl
    rw [blockOrder, rounded]
    decide

/-- Exactly the counts from one to `2 ^ limit` have an order of at most `limit`,
for any limit below 64. -/
theorem block_order_le_iff {pages limit : Nat} (bounded : pages < 2 ^ 64) (below : limit < 64) :
    blockOrder pages ≤ limit ↔ 1 ≤ pages ∧ pages ≤ 2 ^ limit := by
  have reach : 2 ^ limit ≤ 2 ^ 63 := Nat.pow_le_pow_right (by decide) (by omega)
  by_cases inside : 1 ≤ pages ∧ pages ≤ 2 ^ 63
  · rw [block_order_eq_clog inside.1 inside.2, Nat.clog_le_iff_le_pow (by decide)]
    exact ⟨fun small => ⟨inside.1, small⟩, And.right⟩
  · rw [block_order_of_wrap (by omega) bounded]
    omega

end Mftt
