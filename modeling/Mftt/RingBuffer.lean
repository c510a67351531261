import Mathlib.Data.List.Basic
import Mathlib.Logic.Function.Basic
import Mathlib.Tactic

/-!
# Slots buffers with free-running counters

A ring of `capacity` slots is addressed by two counters that are never reset.
They run modulo `modulus` and are reduced modulo `capacity` at each access. When
`capacity` divides `modulus` and is smaller, the two counters determine how many
elements are held, and the ring behaves as a bounded first-in first-out queue.
-/

namespace RingBuffer

variable {α : Type*}

/-- The counters of elements taken and added, and the slots they address. -/
structure Slots (α : Type*) where
  taken : Nat
  added : Nat
  slot : Nat → α

section

variable (capacity modulus : Nat)

/-- The difference of the counters, as the counters' own arithmetic gives it. -/
def Slots.held (ring : Slots α) : Nat :=
  (ring.added + modulus - ring.taken) % modulus

/-- The queue the ring stands for, oldest element first. -/
def Slots.contents (ring : Slots α) : List α :=
  (List.range (ring.held modulus)).map fun k => ring.slot ((ring.taken + k) % capacity)

/-- Store at the slot of the adding counter and advance it. -/
def Slots.add (ring : Slots α) (value : α) : Slots α :=
  { ring with
    added := (ring.added + 1) % modulus
    slot := Function.update ring.slot (ring.added % capacity) value }

/-- The element the taking counter addresses. -/
def Slots.front (ring : Slots α) : α :=
  ring.slot (ring.taken % capacity)

/-- Advance the taking counter. -/
def Slots.take (ring : Slots α) : Slots α :=
  { ring with taken := (ring.taken + 1) % modulus }

/-- Both counters are reduced and no more elements are held than there are slots. -/
structure Slots.Bounded (ring : Slots α) : Prop where
  taken_lt : ring.taken < modulus
  added_lt : ring.added < modulus
  held_le : ring.held modulus ≤ capacity

end

section

variable {capacity modulus : Nat} {ring : Slots α}

/-- The adding counter is the taking counter plus the number of elements held. -/
theorem added_eq (bounded : ring.Bounded capacity modulus) :
    ring.added = (ring.taken + ring.held modulus) % modulus := by
  have taken := bounded.taken_lt
  have added := bounded.added_lt
  rw [Slots.held, Nat.add_mod_mod, show ring.taken + (ring.added + modulus - ring.taken) =
    ring.added + modulus by omega, Nat.add_mod_right, Nat.mod_eq_of_lt added]

/-- The number held is determined by the counters' congruence. -/
theorem held_of_added (taken : ring.taken < modulus) {count : Nat} (small : count < modulus)
    (added : ring.added = (ring.taken + count) % modulus) : ring.held modulus = count := by
  have quotient : (ring.taken + count) / modulus ≤ 1 := by
    apply Nat.le_of_lt_succ
    rw [Nat.div_lt_iff_lt_mul (by omega)]
    omega
  have whole := Nat.mod_add_div (ring.taken + count) modulus
  rw [Slots.held]
  interval_cases (ring.taken + count) / modulus
  · rw [show ring.added + modulus - ring.taken = count + modulus by omega,
      Nat.add_mod_right, Nat.mod_eq_of_lt small]
  · rw [show ring.added + modulus - ring.taken = count by omega, Nat.mod_eq_of_lt small]

/-- The counters are equal exactly when nothing is held. -/
theorem taken_eq_added_iff (bounded : ring.Bounded capacity modulus) :
    ring.taken = ring.added ↔ ring.held modulus = 0 := by
  have taken := bounded.taken_lt
  constructor
  · intro same
    apply held_of_added taken (by omega)
    rw [← same, Nat.add_zero, Nat.mod_eq_of_lt taken]
  · intro empty
    rw [added_eq bounded, empty, Nat.add_zero, Nat.mod_eq_of_lt taken]

/-- The counters are a whole capacity apart exactly when every slot is in use. -/
theorem added_eq_taken_add_iff (bounded : ring.Bounded capacity modulus)
    (smaller : capacity < modulus) :
    ring.added = (ring.taken + capacity) % modulus ↔ ring.held modulus = capacity := by
  constructor
  · exact held_of_added bounded.taken_lt smaller
  · intro full
    rw [added_eq bounded, full]

theorem slot_of_counter (divides : capacity ∣ modulus) (counter k : Nat) :
    (counter % modulus + k) % capacity = (counter + k) % capacity := by
  rw [Nat.add_mod, Nat.mod_mod_of_dvd _ divides, ← Nat.add_mod]

variable (bounded : ring.Bounded capacity modulus) (smaller : capacity < modulus)

include bounded smaller

theorem held_add (room : ring.held modulus < capacity) (value : α) :
    (ring.add capacity modulus value).held modulus = ring.held modulus + 1 := by
  apply held_of_added
  · exact bounded.taken_lt
  · omega
  · change (ring.added + 1) % modulus = (ring.taken + (ring.held modulus + 1)) % modulus
    rw [added_eq bounded, Nat.mod_add_mod, Nat.add_assoc]

theorem bounded_add (room : ring.held modulus < capacity) (value : α) :
    (ring.add capacity modulus value).Bounded capacity modulus := by
  constructor
  · exact bounded.taken_lt
  · exact Nat.mod_lt _ (by omega)
  · rw [held_add bounded smaller room]
    exact room

/-- Adding appends: the slot written to holds none of the elements before it. -/
theorem contents_add (divides : capacity ∣ modulus) (room : ring.held modulus < capacity)
    (value : α) :
    (ring.add capacity modulus value).contents capacity modulus =
      ring.contents capacity modulus ++ [value] := by
  have target : ring.added % capacity = (ring.taken + ring.held modulus) % capacity := by
    rw [added_eq bounded]
    exact slot_of_counter divides _ 0
  rw [Slots.contents, held_add bounded smaller room, List.range_succ, List.map_append]
  congr 1
  · apply List.map_congr_left
    intro k inRange
    have before : k < ring.held modulus := List.mem_range.mp inRange
    apply Function.update_of_ne
    rw [target]
    intro same
    have congruent : k ≡ ring.held modulus [MOD capacity] :=
      Nat.ModEq.add_left_cancel' ring.taken same
    have equal := Nat.ModEq.eq_of_lt_of_lt congruent (by omega) room
    omega
  · change [Function.update ring.slot (ring.added % capacity) value
      ((ring.taken + ring.held modulus) % capacity)] = [value]
    rw [← target, Function.update_self]

theorem held_take (some_held : 0 < ring.held modulus) :
    (ring.take modulus).held modulus = ring.held modulus - 1 := by
  have most := bounded.held_le
  apply held_of_added
  · exact Nat.mod_lt _ (by omega)
  · omega
  · change ring.added = ((ring.taken + 1) % modulus + (ring.held modulus - 1)) % modulus
    rw [Nat.mod_add_mod, show ring.taken + 1 + (ring.held modulus - 1) =
      ring.taken + ring.held modulus by omega]
    exact added_eq bounded

theorem bounded_take (some_held : 0 < ring.held modulus) :
    (ring.take modulus).Bounded capacity modulus := by
  have most := bounded.held_le
  constructor
  · exact Nat.mod_lt _ (by omega)
  · exact bounded.added_lt
  · rw [held_take bounded smaller some_held]
    omega

/-- Taking removes the front element and keeps the order of the others. -/
theorem contents_take (divides : capacity ∣ modulus) (some_held : 0 < ring.held modulus) :
    ring.contents capacity modulus =
      ring.front capacity :: (ring.take modulus).contents capacity modulus := by
  obtain ⟨rest, count⟩ : ∃ rest, ring.held modulus = rest + 1 :=
    ⟨ring.held modulus - 1, by omega⟩
  rw [Slots.contents, Slots.contents, held_take bounded smaller some_held, count,
    List.range_succ_eq_map, List.map_cons, List.map_map]
  congr 1
  apply List.map_congr_left
  intro k _
  change ring.slot ((ring.taken + (k + 1)) % capacity) =
    ring.slot (((ring.taken + 1) % modulus + k) % capacity)
  rw [slot_of_counter divides, show ring.taken + 1 + k = ring.taken + (k + 1) by omega]

end

end RingBuffer
