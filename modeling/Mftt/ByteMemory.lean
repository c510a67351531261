import Mathlib.Order.CompletePartialOrder
import Mathlib.Algebra.Ring.Nat
import Mathlib.Data.Set.Lattice

/-!
# Byte-addressed memory

Memory is a function from addresses to bytes. A field of several bytes is read and
written as a number, least significant byte first. What an operation leaves alone is
said by the set of addresses inside which it may change something: a field apart from
that set keeps its value.
-/

namespace ByteMemory

abbrev Bytes := Nat → BitVec 8

/-- Addresses of a field. -/
abbrev span (a n : Nat) : Set Nat := Set.Ico a (a + n)

/-- The number in the `n` bytes from `a` on. -/
def load (m : Bytes) (a : Nat) : Nat → Nat
  | 0 => 0
  | n + 1 => (m a).toNat + 256 * load m (a + 1) n

/-- Writes a number to the `n` bytes from `a` on. -/
def store (m : Bytes) (a n value : Nat) : Bytes := fun x =>
  if a ≤ x ∧ x < a + n then BitVec.ofNat 8 (value / 256 ^ (x - a)) else m x

/-- Writes one byte to all addresses from `a` on, for `n` bytes. -/
def fill (m : Bytes) (a n : Nat) (byte : BitVec 8) : Bytes := fun x =>
  if a ≤ x ∧ x < a + n then byte else m x

/-- The second memory differs from the first inside `scope` only. -/
def ChangedIn (scope : Set Nat) (m m' : Bytes) : Prop := ∀ x, x ∉ scope → m' x = m x

section Loads

variable {m m' : Bytes} {a n : Nat}

theorem load_congr (same : ∀ x ∈ span a n, m' x = m x) : load m' a n = load m a n := by
  induction n generalizing a with
  | zero => rfl
  | succ n ih =>
    have first : m' a = m a := same a (by simp [span])
    have rest : load m' (a + 1) n = load m (a + 1) n := by
      apply ih
      intro x inside
      apply same
      simp only [Set.mem_Ico] at inside ⊢
      omega
    rw [load, load, first, rest]

/-- A load from a memory seen from some address on. -/
theorem load_shift (m : Bytes) (base a n : Nat) :
    load (fun x => m (base + x)) a n = load m (base + a) n := by
  induction n generalizing a with
  | zero => rfl
  | succ n ih => rw [load, load, ih, Nat.add_assoc]

theorem load_lt (m : Bytes) (a n : Nat) : load m a n < 256 ^ n := by
  induction n generalizing a with
  | zero => simp [load]
  | succ n ih =>
    have rest := ih (a + 1)
    rw [load]
    omega

end Loads

section Stores

variable {m m' m'' : Bytes} {a b n k : Nat} {scope scope' : Set Nat}

theorem ChangedIn.refl (scope : Set Nat) (m : Bytes) : ChangedIn scope m m := fun _ _ => rfl

theorem ChangedIn.trans (first : ChangedIn scope m m') (second : ChangedIn scope m' m'') :
    ChangedIn scope m m'' :=
  fun x outside => (second x outside).trans (first x outside)

theorem ChangedIn.mono (changed : ChangedIn scope m m') (wider : scope ⊆ scope') :
    ChangedIn scope' m m' :=
  fun x outside => changed x (fun inside => outside (wider inside))

/-- A field apart from all changes keeps its value. -/
theorem ChangedIn.load (changed : ChangedIn scope m m')
    (apart : ∀ x ∈ span a n, x ∉ scope) : load m' a n = load m a n :=
  load_congr (fun x inside => changed x (apart x inside))

theorem changed_store (m : Bytes) (a n value : Nat) :
    ChangedIn (span a n) m (store m a n value) :=
  fun _ outside => if_neg outside

theorem changed_fill (m : Bytes) (a n : Nat) (byte : BitVec 8) :
    ChangedIn (span a n) m (fill m a n byte) :=
  fun _ outside => if_neg outside

/-- Reading back what was written. -/
theorem load_store (m : Bytes) (a n value : Nat) :
    load (store m a n value) a n = value % 256 ^ n := by
  -- the bytes above the first are those of a shorter store
  have shifted : ∀ k d, k ≤ n → d + k = n →
      load (store m a n value) (a + d) k = value / 256 ^ d % 256 ^ k := by
    intro k
    induction k with
    | zero => intro d _ _; simp [load, Nat.mod_one]
    | succ k ih =>
      intro d bound total
      have inside : a ≤ a + d ∧ a + d < a + n := by omega
      have byte : (store m a n value (a + d)).toNat = value / 256 ^ d % 256 := by
        simp [store, inside]
      rw [load, byte, Nat.add_assoc, ih (d + 1) (by omega) (by omega), Nat.pow_succ 256 d,
        ← Nat.div_div_eq_div_mul, Nat.pow_succ', Nat.mod_mul]
  simpa using shifted n 0 (Nat.le_refl n) (by omega)

/-- Reading bytes that are those of a number. -/
theorem load_of_bytes {value : Nat}
    (bytes : ∀ k, k < n → m (a + k) = BitVec.ofNat 8 (value / 256 ^ k)) :
    load m a n = value % 256 ^ n := by
  rw [← load_store m a n value]
  apply load_congr
  intro x inside
  obtain ⟨k, rfl⟩ := Nat.exists_eq_add_of_le inside.1
  have below : k < n := Nat.lt_of_add_lt_add_left inside.2
  simp [store, bytes k below]

/-- Reading a field apart from the one written. -/
theorem load_store_apart (m : Bytes) (value : Nat) (apart : a + n ≤ b ∨ b + k ≤ a) :
    load (store m a n value) b k = load m b k := by
  apply (changed_store m a n value).load
  intro x inside outside
  simp only [Set.mem_Ico] at inside outside
  omega

/-- The bytes of a number that was read. -/
theorem load_byte (m : Bytes) (inside : k < n) :
    BitVec.ofNat 8 (load m a n / 256 ^ k) = m (a + k) := by
  induction n generalizing a k with
  | zero => cases inside
  | succ n ih =>
    cases k with
    | zero =>
      apply BitVec.eq_of_toNat_eq
      simp only [load, BitVec.toNat_ofNat, Nat.add_zero]
      omega
    | succ k =>
      have rest : load m a (n + 1) / 256 ^ (k + 1) = load m (a + 1) n / 256 ^ k := by
        rw [load, Nat.pow_succ', ← Nat.div_div_eq_div_mul]
        congr 1
        omega
      rw [rest, ih (Nat.lt_of_succ_lt_succ inside), Nat.add_right_comm, Nat.add_assoc]

/-- Writing back what stood there before. -/
theorem store_restore (m : Bytes) (a n value : Nat) :
    store (store m a n value) a n (load m a n) = m := by
  funext x
  by_cases inside : a ≤ x ∧ x < a + n
  · obtain ⟨k, rfl⟩ := Nat.exists_eq_add_of_le inside.1
    have below : k < n := Nat.lt_of_add_lt_add_left inside.2
    rw [store, if_pos inside, Nat.add_sub_cancel_left, load_byte m below]
  · rw [store, if_neg inside, store, if_neg inside]

/-- Cleared memory reads as zero. -/
theorem load_fill_zero (m : Bytes) (inside : a ≤ b ∧ b + k ≤ a + n) :
    load (fill m a n 0#8) b k = 0 := by
  induction k generalizing b with
  | zero => rfl
  | succ k ih =>
    have byte : fill m a n 0#8 b = 0#8 := if_pos (by omega)
    rw [load, byte, ih (by omega)]
    rfl

theorem load_fill_apart (m : Bytes) (byte : BitVec 8) (apart : a + n ≤ b ∨ b + k ≤ a) :
    load (fill m a n byte) b k = load m b k := by
  apply (changed_fill m a n byte).load
  intro x inside outside
  simp only [Set.mem_Ico] at inside outside
  omega

end Stores

end ByteMemory
