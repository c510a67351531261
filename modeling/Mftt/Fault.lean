import Mathlib.Algebra.Ring.Nat

/-!
# How a kernel routine ends

A routine of the kernel returns a value and a new state, or it never returns:
it reaches `kpanic` (directly or through a failed `assert`), it follows a NULL
pointer, or one of its loops does not end. An access outside an array returns, in
C, but nothing can be said of what follows. Each of these is a separate outcome
here, so that no theorem about returned values hides a routine that has none.

Loops whose number of turns depends on memory contents take an explicit bound
on their turns. Running out of it is the outcome `unfinished`; the theorems
about such a loop say which bound is enough.
-/

namespace Mftt

/-- Why a routine does not return. A panic carries the text of its message. -/
inductive Fault where
  | kpanic (message : String)
  | nullPointer
  | outOfBounds
  | unfinished
  deriving DecidableEq, Repr

/-- `kpanic(message)`, which never returns. -/
def kpanic {α : Type} (message : String) : Except Fault α :=
  .error (.kpanic message)

/-- `assert(condition, message)` panics exactly when its condition is false. -/
def assert (condition : Prop) [Decidable condition] (message : String) : Except Fault Unit :=
  if condition then .ok () else .error (.kpanic message)

/-- A pointer about to be followed must not be NULL. -/
def notNull (pointer : Nat) : Except Fault Unit :=
  if pointer = 0 then .error .nullPointer else .ok ()

@[simp] theorem assert_true {condition : Prop} [Decidable condition] (message : String)
    (holds : condition) : assert condition message = .ok () := by
  simp [assert, holds]

theorem assert_eq_ok {condition : Prop} [Decidable condition] {message : String} {value : Unit} :
    assert condition message = .ok value ↔ condition := by
  simp [assert]

@[simp] theorem not_null_of_ne {pointer : Nat} (valid : pointer ≠ 0) :
    notNull pointer = .ok () := by
  simp [notNull, valid]

@[simp] theorem bind_ok {α β : Type} (value : α) (rest : α → Except Fault β) :
    (Except.ok value >>= rest) = rest value := rfl

@[simp] theorem bind_error {α β : Type} (fault : Fault) (rest : α → Except Fault β) :
    (Except.error fault >>= rest) = Except.error fault := rfl

@[simp] theorem pure_eq_ok {α : Type} (value : α) :
    (pure value : Except Fault α) = .ok value := rfl

/-- A sequence of two routines returns exactly when both do, the second from
the value of the first. -/
theorem bind_eq_ok {α β : Type} {first : Except Fault α} {rest : α → Except Fault β}
    {result : β} : (first >>= rest) = .ok result ↔
      ∃ value, first = .ok value ∧ rest value = .ok result := by
  cases first with
  | error fault => simp
  | ok value => simp

end Mftt
