import Mathlib.Data.List.Pairwise
import Mathlib.Logic.Function.Basic

/-!
# Copying element by element

A loop that copies an area moves one element after the other, and each move reads a memory that
the moves before it have changed. The memory after all moves holds at each target what stood at
its source before the first move, if no move reads or writes the target of an earlier one.
-/

namespace CopyMoves

open Function

variable {Address Value : Type} [DecidableEq Address]

/-- The memory after moves, each from its second address to its first. -/
def apply (memory : Address → Value) (moves : List (Address × Address)) : Address → Value :=
  moves.foldl (fun memory move => update memory move.1 (memory move.2)) memory

/-- No move reads or writes the target of an earlier one. -/
def Undisturbed (moves : List (Address × Address)) : Prop :=
  moves.Pairwise (fun earlier later => later.1 ≠ earlier.1 ∧ later.2 ≠ earlier.1)

theorem apply_outside (memory : Address → Value) (moves : List (Address × Address))
    {address : Address} (outside : ∀ move ∈ moves, move.1 ≠ address) :
    apply memory moves address = memory address := by
  induction moves generalizing memory with
  | nil => rfl
  | cons move rest ih =>
    have later := ih (update memory move.1 (memory move.2))
      (fun other inside => outside other (List.mem_cons_of_mem _ inside))
    have here : address ≠ move.1 := fun same => outside move List.mem_cons_self same.symm
    rw [update_of_ne here] at later
    exact later

theorem apply_inside (memory : Address → Value) {moves : List (Address × Address)}
    (undisturbed : Undisturbed moves) {move : Address × Address} (inside : move ∈ moves) :
    apply memory moves move.1 = memory move.2 := by
  induction moves generalizing memory with
  | nil => cases inside
  | cons first rest ih =>
    obtain ⟨apart, restApart⟩ := List.pairwise_cons.mp undisturbed
    rcases List.mem_cons.mp inside with rfl | later
    · have kept := apply_outside (update memory move.1 (memory move.2)) rest
        (fun other there => (apart other there).1)
      rw [update_self] at kept
      exact kept
    · have copied := ih (update memory first.1 (memory first.2)) restApart later
      rw [update_of_ne (apart move later).2] at copied
      exact copied

/-- Moves within a memory of equal values change nothing. -/
theorem apply_const (value : Value) (moves : List (Address × Address)) :
    apply (fun _ => value) moves = fun _ => value := by
  induction moves with
  | nil => rfl
  | cons move rest ih =>
    have same : update (fun _ => value) move.1 value = fun _ : Address => value :=
      update_eq_self move.1 _
    rw [apply, List.foldl_cons, same]
    exact ih

end CopyMoves
