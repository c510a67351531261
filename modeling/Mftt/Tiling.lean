import Mathlib.Algebra.Ring.Nat
import Mathlib.Algebra.BigOperators.Group.List.Basic
import Mathlib.Data.List.Pairwise

/-!
# Tilings of an interval

A list of pieces tiles an interval when each piece starts where the one before it ends.
Each piece carries a mark that says whether it is in use. The lemmas say where the
pieces lie, that they do not overlap, and what becomes of a tiling when a piece is
marked, divided or joined with the one behind it.
-/

namespace Tiling

/-- A piece of an interval. -/
structure Piece where
  start : Nat
  size : Nat
  used : Bool
  deriving DecidableEq, Repr

/-- The pieces tile the interval from `a` to `e`, and none is smaller than `least`. -/
def Tiles (least : Nat) : Nat → Nat → List Piece → Prop
  | a, e, [] => a = e
  | a, e, p :: ps => p.start = a ∧ least ≤ p.size ∧ Tiles least (a + p.size) e ps

/-- The pieces that are not in use. -/
def freePieces (ps : List Piece) : List Piece := ps.filter fun p => !p.used

/-- Where they start. -/
def freeStarts (ps : List Piece) : List Nat := (freePieces ps).map Piece.start

/-- Their size in all. -/
def freeTotal (ps : List Piece) : Nat := ((freePieces ps).map Piece.size).sum

variable {least a e : Nat} {ps qs before after : List Piece} {p q : Piece}

theorem tiles_append : Tiles least a e (ps ++ qs) ↔
    ∃ mid, Tiles least a mid ps ∧ Tiles least mid e qs := by
  induction ps generalizing a with
  | nil => simp [Tiles]
  | cons p ps ih =>
    simp only [List.cons_append, Tiles, ih]
    tauto

section

variable (tiles : Tiles least a e ps)
include tiles

theorem Tiles.total : a + (ps.map Piece.size).sum = e := by
  induction ps generalizing a with
  | nil =>
    obtain rfl : a = e := tiles
    simp
  | cons p ps ih =>
    have rest := ih tiles.2.2
    simp only [List.map_cons, List.sum_cons]
    omega

/-- Every piece lies in the interval. -/
theorem Tiles.within (member : p ∈ ps) : a ≤ p.start ∧ p.start + p.size ≤ e ∧ least ≤ p.size := by
  induction ps generalizing a with
  | nil => cases member
  | cons q ps ih =>
    obtain ⟨start, large, rest⟩ := tiles
    rcases List.mem_cons.mp member with rfl | behind
    · have total := rest.total
      exact ⟨by omega, by omega, large⟩
    · have inside := ih rest behind
      exact ⟨by omega, inside.2⟩

/-- The pieces lie one behind the other. -/
theorem Tiles.pairwise : ps.Pairwise fun p q => p.start + p.size ≤ q.start := by
  induction ps generalizing a with
  | nil => exact .nil
  | cons p ps ih =>
    obtain ⟨start, -, rest⟩ := tiles
    refine .cons (fun q member => ?_) (ih rest)
    have inside := rest.within member
    omega

/-- Different pieces do not overlap. -/
theorem Tiles.apart (left : p ∈ ps) (right : q ∈ ps) (other : p ≠ q) :
    p.start + p.size ≤ q.start ∨ q.start + q.size ≤ p.start := by
  have symmetric : Std.Symm fun p q : Piece =>
      p.start + p.size ≤ q.start ∨ q.start + q.size ≤ p.start := ⟨fun _ _ => Or.symm⟩
  have either : ps.Pairwise fun p q => p.start + p.size ≤ q.start ∨ q.start + q.size ≤ p.start :=
    tiles.pairwise.imp Or.inl
  exact either.forall left right other

/-- A piece is known by any of its points. -/
theorem Tiles.unique (left : p ∈ ps) (right : q ∈ ps) {x : Nat}
    (inLeft : p.start ≤ x ∧ x < p.start + p.size) (inRight : q.start ≤ x ∧ x < q.start + q.size) :
    p = q := by
  by_contra other
  have apart := tiles.apart left right other
  omega

theorem Tiles.start_unique (positive : 0 < least) (left : p ∈ ps) (right : q ∈ ps)
    (same : p.start = q.start) : p = q := by
  have first := tiles.within left
  have second := tiles.within right
  exact tiles.unique left right (x := p.start) ⟨by omega, by omega⟩ ⟨by omega, by omega⟩

theorem Tiles.length_le : a + least * ps.length ≤ e := by
  induction ps generalizing a with
  | nil =>
    obtain rfl : a = e := tiles
    simp
  | cons p ps ih =>
    have rest := ih tiles.2.2
    have large := tiles.2.1
    simp only [List.length_cons, Nat.mul_succ]
    omega

end

section Marks

variable {b sz sz' : Nat} {mark mark' : Bool}

theorem Tiles.remark (tiles : Tiles least a e (before ++ ⟨b, sz, mark⟩ :: after)) (mark' : Bool) :
    Tiles least a e (before ++ ⟨b, sz, mark'⟩ :: after) := by
  obtain ⟨mid, first, last⟩ := tiles_append.mp tiles
  exact tiles_append.mpr ⟨mid, first, last⟩

/-- Two pieces become one. -/
theorem Tiles.join {c : Nat}
    (tiles : Tiles least a e (before ++ ⟨b, sz, mark⟩ :: ⟨c, sz', mark'⟩ :: after)) :
    Tiles least a e (before ++ ⟨b, sz + sz', mark⟩ :: after) := by
  obtain ⟨mid, first, start, large, next, large', rest⟩ := tiles_append.mp tiles
  refine tiles_append.mpr ⟨mid, first, start, ?_, ?_⟩
  · simp only at large ⊢
    omega
  · rwa [Nat.add_assoc] at rest

/-- The second of two pieces starts where the first ends. -/
theorem Tiles.next_start {c : Nat}
    (tiles : Tiles least a e (before ++ ⟨b, sz, mark⟩ :: ⟨c, sz', mark'⟩ :: after)) : c = b + sz := by
  obtain ⟨mid, -, start, -, next, -⟩ := tiles_append.mp tiles
  simp only at start next
  omega

/-- One piece becomes two. -/
theorem Tiles.divide (tiles : Tiles least a e (before ++ ⟨b, sz, mark⟩ :: after))
    (first : least ≤ sz') (second : sz' + least ≤ sz) (mark' : Bool) :
    Tiles least a e (before ++ ⟨b, sz', mark⟩ :: ⟨b + sz', sz - sz', mark'⟩ :: after) := by
  obtain ⟨mid, front, start, large, rest⟩ := tiles_append.mp tiles
  subst start
  refine tiles_append.mpr ⟨b, front, rfl, first, rfl, ?_, ?_⟩
  · simp only
    omega
  · rwa [show b + sz' + (sz - sz') = b + sz by omega]

theorem Tiles.last_end (tiles : Tiles least a e (before ++ [⟨b, sz, mark⟩])) : b + sz = e := by
  obtain ⟨mid, -, start, -, last⟩ := tiles_append.mp tiles
  simp only [Tiles] at start last
  omega

end Marks

section Free

theorem free_starts_append (ps qs : List Piece) :
    freeStarts (ps ++ qs) = freeStarts ps ++ freeStarts qs :=
  (congrArg (List.map Piece.start) (List.filter_append ps qs)).trans List.map_append

@[simp] theorem free_starts_used (b sz : Nat) (ps : List Piece) :
    freeStarts (⟨b, sz, true⟩ :: ps) = freeStarts ps := rfl

@[simp] theorem free_starts_free (b sz : Nat) (ps : List Piece) :
    freeStarts (⟨b, sz, false⟩ :: ps) = b :: freeStarts ps := rfl

theorem free_total_append (ps qs : List Piece) :
    freeTotal (ps ++ qs) = freeTotal ps + freeTotal qs := by
  simp [freeTotal, freePieces]

@[simp] theorem free_total_used (b sz : Nat) (ps : List Piece) :
    freeTotal (⟨b, sz, true⟩ :: ps) = freeTotal ps := rfl

@[simp] theorem free_total_free (b sz : Nat) (ps : List Piece) :
    freeTotal (⟨b, sz, false⟩ :: ps) = sz + freeTotal ps := rfl

theorem mem_free_starts {x : Nat} :
    x ∈ freeStarts ps ↔ ∃ p ∈ ps, p.used = false ∧ p.start = x := by
  simp only [freeStarts, freePieces, List.mem_map, List.mem_filter, Bool.not_eq_true']
  constructor
  · rintro ⟨p, ⟨member, free⟩, rfl⟩
    exact ⟨p, member, free, rfl⟩
  · rintro ⟨p, member, free, rfl⟩
    exact ⟨p, ⟨member, free⟩, rfl⟩

theorem free_total_le (ps : List Piece) : freeTotal ps ≤ (ps.map Piece.size).sum := by
  induction ps with
  | nil => exact Nat.le_refl _
  | cons p ps ih =>
    obtain ⟨b, sz, _ | _⟩ := p
    · exact Nat.add_le_add_left ih sz
    · exact Nat.le_add_left_of_le ih

end Free

end Tiling
