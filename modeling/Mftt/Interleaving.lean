import Mathlib.Algebra.BigOperators.Group.Finset.Basic
import Mathlib.Algebra.BigOperators.Ring.Finset
import Mathlib.Data.Fintype.Card
import Mathlib.Logic.Function.Basic

/-!
# Interleaved threads over a shared state

Any number of threads, each with a state of its own, take steps one at a time in
any order on one shared state. A run records which thread took each step and the
event it showed. The module gives the rule that a lock protects its critical
sections and counts the threads in a given kind of state.
-/

namespace Interleaving

variable {ι σ τ ε : Type*}

/-- The shared state and the state of every thread. -/
structure System (ι σ τ : Type*) where
  shared : σ
  thread : ι → τ

variable [DecidableEq ι]

/-- The system after one thread has moved. -/
def System.move (s : System ι σ τ) (i : ι) (shared : σ) (thread : τ) : System ι σ τ :=
  ⟨shared, Function.update s.thread i thread⟩

@[simp] theorem move_shared (s : System ι σ τ) (i : ι) (shared : σ) (thread : τ) :
    (s.move i shared thread).shared = shared := rfl

@[simp] theorem move_thread_self (s : System ι σ τ) (i : ι) (shared : σ) (thread : τ) :
    (s.move i shared thread).thread i = thread :=
  Function.update_self ..

theorem move_thread_of_ne (s : System ι σ τ) {i j : ι} (other : j ≠ i) (shared : σ)
    (thread : τ) : (s.move i shared thread).thread j = s.thread j :=
  Function.update_of_ne other ..

/-- Runs of the threads from a first system, with the trace of their events. -/
inductive Run (step : σ → τ → ε → σ → τ → Prop) (first : System ι σ τ) :
    List (ι × ε) → System ι σ τ → Prop where
  | first : Run step first [] first
  | step {trace s i event shared thread} : Run step first trace s →
      step s.shared (s.thread i) event shared thread →
      Run step first (trace ++ [(i, event)]) (s.move i shared thread)

variable {step : σ → τ → ε → σ → τ → Prop} {first : System ι σ τ}

/-- The part of the system a lock protects: which shared states have it taken and
which threads are in their critical section. -/
structure Guards (step : σ → τ → ε → σ → τ → Prop) (locked : σ → Prop)
    (holds : τ → Prop) : Prop where
  enters : ∀ {s t e s' t'}, step s t e s' t' → ¬ holds t → holds t' → ¬ locked s ∧ locked s'
  stays : ∀ {s t e s' t'}, step s t e s' t' → holds t → holds t' → locked s → locked s'
  outside : ∀ {s t e s' t'}, step s t e s' t' → ¬ holds t → ¬ holds t' → locked s → locked s'

/-- A system whose lock is taken when some thread is in its critical section, and then
by that thread alone. -/
structure Exclusive (locked : σ → Prop) (holds : τ → Prop) (s : System ι σ τ) : Prop where
  taken : ∀ i, holds (s.thread i) → locked s.shared
  unique : ∀ i j, holds (s.thread i) → holds (s.thread j) → i = j

/-- A step of one thread keeps a lock exclusive. -/
theorem exclusive_move {locked : σ → Prop} {holds : τ → Prop} (guards : Guards step locked holds)
    {s : System ι σ τ} (exclusive : Exclusive locked holds s) {i : ι} {event : ε} {shared : σ}
    {thread : τ} (moves : step s.shared (s.thread i) event shared thread) :
    Exclusive locked holds (s.move i shared thread) := by
  -- After the move another thread holds the lock only if the mover neither held nor took it.
  have others : ∀ j, j ≠ i → holds (s.thread j) → ¬ holds thread ∧ locked shared := by
    intro j other holding
    have outside : ¬ holds (s.thread i) := fun held => other (exclusive.unique j i holding held)
    have locked_before := exclusive.taken j holding
    have still : ¬ holds thread := fun entered =>
      (guards.enters moves outside entered).1 locked_before
    exact ⟨still, guards.outside moves outside still locked_before⟩
  have own : holds thread → locked shared := by
    intro holding
    by_cases held : holds (s.thread i)
    · exact guards.stays moves held holding (exclusive.taken i held)
    · exact (guards.enters moves held holding).2
  constructor
  · intro j holding
    by_cases same : j = i
    · subst same
      rw [move_thread_self] at holding
      exact own holding
    · rw [move_thread_of_ne s same] at holding
      exact (others j same holding).2
  · intro j k holding_j holding_k
    by_cases same_j : j = i <;> by_cases same_k : k = i
    · rw [same_j, same_k]
    · subst same_j
      rw [move_thread_self] at holding_j
      rw [move_thread_of_ne s same_k] at holding_k
      exact absurd holding_j (others k same_k holding_k).1
    · subst same_k
      rw [move_thread_self] at holding_k
      rw [move_thread_of_ne s same_j] at holding_j
      exact absurd holding_k (others j same_j holding_j).1
    · rw [move_thread_of_ne s same_j] at holding_j
      rw [move_thread_of_ne s same_k] at holding_k
      exact exclusive.unique j k holding_j holding_k

/-! ## Counting threads -/

section

variable [Fintype ι] (P : τ → Prop) [DecidablePred P]

/-- The number of threads whose state satisfies a predicate. -/
def System.count (s : System ι σ τ) : Nat :=
  (Finset.univ.filter fun i => P (s.thread i)).card

theorem count_move (s : System ι σ τ) (i : ι) (shared : σ) (thread : τ) :
    (s.move i shared thread).count P + (if P (s.thread i) then 1 else 0) =
      s.count P + if P thread then 1 else 0 := by
  have others : ∀ j ∈ Finset.univ.erase i,
      (if P ((s.move i shared thread).thread j) then 1 else 0) =
        if P (s.thread j) then 1 else 0 := by
    intro j member
    rw [move_thread_of_ne s (Finset.ne_of_mem_erase member)]
  rw [System.count, System.count, Finset.card_filter, Finset.card_filter,
    ← Finset.add_sum_erase Finset.univ _ (Finset.mem_univ i),
    ← Finset.add_sum_erase Finset.univ _ (Finset.mem_univ i), Finset.sum_congr rfl others,
    move_thread_self]
  omega

omit [DecidableEq ι] in
theorem count_pos {s : System ι σ τ} {i : ι} (holds : P (s.thread i)) : 0 < s.count P :=
  Finset.card_pos.mpr ⟨i, Finset.mem_filter.mpr ⟨Finset.mem_univ i, holds⟩⟩

end

end Interleaving
