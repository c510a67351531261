import Mathlib.Data.List.Basic
import Mathlib.Data.List.Nodup

/-!
# Doubly linked list segments

Two functions give the predecessor and the successor stored at an address. A
segment lists the addresses met from a first one up to, and excluding, a stop
address, together with the fact that every stored predecessor is the address met
just before. A list that ends in a null pointer is a segment that stops at null;
a circular list with a sentinel is a segment from and to the sentinel.

The laws describe what a segment becomes when one node is linked in front or
unlinked, for any stores that agree with the old ones away from the few links
that such an operation writes. The address type is arbitrary.
-/

namespace ListSegment

universe u
variable {α : Type u}

/-- Members met from `first` up to `stop`, with `before` the address that the
first member's stored predecessor must be. -/
def Segment (prev next : α → α) : α → α → List α → α → Prop
  | _, first, [], stop => first = stop
  | before, first, a :: rest, stop =>
      first = a ∧ prev a = before ∧ Segment prev next a (next a) rest stop

variable {prev next prev' next' : α → α} {before first stop a : α} {l r : List α}

/-- Segments read only the links of their members. -/
theorem segment_congr (segment : Segment prev next before first l stop)
    (samePrev : ∀ x ∈ l, prev' x = prev x) (sameNext : ∀ x ∈ l, next' x = next x) :
    Segment prev' next' before first l stop := by
  induction l generalizing before first with
  | nil => exact segment
  | cons b rest ih =>
    obtain ⟨rfl, back, tail⟩ := segment
    refine ⟨rfl, (samePrev first (by simp)).trans back, ?_⟩
    rw [sameNext first (by simp)]
    exact ih tail (fun x member => samePrev x (by simp [member]))
      (fun x member => sameNext x (by simp [member]))

/-- A segment splits at any place: the second part starts where the first stops
and its first predecessor is the last member of the first part. -/
theorem segment_append : Segment prev next before first (l ++ r) stop ↔
    ∃ middle, Segment prev next before first l middle ∧
      Segment prev next (l.getLastD before) middle r stop := by
  induction l generalizing before first with
  | nil => simp [Segment]
  | cons b rest ih =>
    simp only [List.getLastD_cons]
    constructor
    · rintro ⟨same, back, tail⟩
      obtain ⟨middle, left, right⟩ := ih.mp tail
      exact ⟨middle, ⟨same, back, left⟩, right⟩
    · rintro ⟨middle, ⟨same, back, left⟩, right⟩
      exact ⟨same, back, ih.mpr ⟨middle, left, right⟩⟩

theorem segment_first (segment : Segment prev next before first l stop) :
    first = l.head?.getD stop := by
  cases l with
  | nil => exact segment
  | cons b rest => exact segment.1

/-- Two segments from one place to one stop address list the same members,
provided the stop is a member of neither. -/
theorem segment_unique {m : List α} (left : Segment prev next before first l stop)
    (right : Segment prev next before first m stop) (outsideLeft : stop ∉ l)
    (outsideRight : stop ∉ m) : l = m := by
  induction l generalizing before first m with
  | nil =>
    cases m with
    | nil => rfl
    | cons b rest =>
      have same : stop = b := left.symm.trans right.1
      exact absurd (by simp [same]) outsideRight
  | cons b rest ih =>
    cases m with
    | nil =>
      have same : stop = b := right.symm.trans left.1
      exact absurd (by simp [same]) outsideLeft
    | cons c tail =>
      obtain ⟨rfl, _, leftTail⟩ := left
      obtain ⟨rfl, _, rightTail⟩ := right
      rw [ih leftTail rightTail (fun member => outsideLeft (by simp [member]))
        (fun member => outsideRight (by simp [member]))]

/-- The stop of a nonempty segment is what its last member's successor says; after
rewriting that one link the segment has the new stop. -/
theorem segment_retarget {target : α} (segment : Segment prev next before first l stop)
    (unique : l.Nodup) (nonempty : l ≠ []) (link : next' (l.getLastD before) = target)
    (samePrev : ∀ x ∈ l, prev' x = prev x)
    (sameNext : ∀ x ∈ l, x ≠ l.getLastD before → next' x = next x) :
    Segment prev' next' before first l target := by
  induction l generalizing before first with
  | nil => exact absurd rfl nonempty
  | cons b rest ih =>
    obtain ⟨rfl, back, tail⟩ := segment
    refine ⟨rfl, (samePrev first (by simp)).trans back, ?_⟩
    cases rest with
    | nil => simpa [Segment] using link
    | cons c more =>
      have absent : first ∉ c :: more := (List.nodup_cons.mp unique).1
      have last : (c :: more).getLastD first ∈ c :: more := by
        rw [List.getLastD_cons]
        exact List.getLastD_mem_cons
      have kept : next' first = next first :=
        sameNext first (by simp) (fun same => absent (same ▸ last))
      rw [kept]
      exact ih tail (List.nodup_cons.mp unique).2 (by simp) link
        (fun x member => samePrev x (by simp [member]))
        (fun x member different => sameNext x (by simp [member]) different)

/-- A segment whose first member gets a new predecessor, with every other link of
its members kept. -/
theorem segment_rebase {previous : α} (segment : Segment prev next before first l stop)
    (unique : l.Nodup) (link : ∀ b ∈ l.head?, prev' b = previous)
    (samePrev : ∀ x ∈ l, x ∉ l.head? → prev' x = prev x)
    (sameNext : ∀ x ∈ l, next' x = next x) :
    Segment prev' next' previous first l stop := by
  cases l with
  | nil => exact segment
  | cons b rest =>
    obtain ⟨rfl, _, tail⟩ := segment
    refine ⟨rfl, link first (by simp), ?_⟩
    rw [sameNext first (by simp)]
    have absent : first ∉ rest := (List.nodup_cons.mp unique).1
    refine segment_congr tail ?_ (fun x member => sameNext x (by simp [member]))
    intro x member
    refine samePrev x (by simp [member]) ?_
    simp only [List.head?_cons, Option.mem_some_iff]
    exact fun same => absent (same ▸ member)

/-- Unlinking the member between `l` and `r`. The last member of `l` is given the
removed node's successor, the first member of `r` its predecessor, and no other
link of a remaining member changes. An empty `l` moves the first address. -/
theorem segment_unlink (segment : Segment prev next before first (l ++ a :: r) stop)
    (unique : (l ++ a :: r).Nodup)
    (forward : l ≠ [] → next' (l.getLastD before) = next a)
    (backward : ∀ b ∈ r.head?, prev' b = prev a)
    (samePrev : ∀ x ∈ l ++ r, x ∉ r.head? → prev' x = prev x)
    (sameNext : ∀ x ∈ l ++ r, x ≠ l.getLastD before → next' x = next x)
    (outside : before ∉ r) :
    Segment prev' next' before (if l = [] then next a else first) (l ++ r) stop := by
  obtain ⟨middle, left, same, back, right⟩ := segment_append.mp segment
  subst same
  have uniqueParts := List.nodup_append.mp unique
  have uniqueRight : r.Nodup := (List.nodup_cons.mp uniqueParts.2.1).2
  have apart : ∀ x ∈ l, x ∉ r := by
    intro x inLeft inRight
    exact uniqueParts.2.2 x inLeft x (by simp [inRight]) rfl
  have lastOutside : l.getLastD before ∉ r := by
    rcases List.mem_cons.mp (List.getLastD_mem_cons (l := l) (a := before)) with same | member
    · rw [same]
      exact outside
    · exact apart _ member
  have newRight : Segment prev' next' (l.getLastD before) (next middle) r stop := by
    refine segment_rebase right uniqueRight (fun b member => (backward b member).trans back) ?_ ?_
    · intro x member notHead
      exact samePrev x (by simp [member]) notHead
    · intro x member
      exact sameNext x (by simp [member]) (fun same => lastOutside (same ▸ member))
  refine segment_append.mpr ⟨next middle, ?_, newRight⟩
  by_cases empty : l = []
  · simp [empty, Segment]
  · simp only [empty]
    refine segment_retarget left uniqueParts.1 empty (forward empty) ?_ ?_
    · intro x member
      refine samePrev x (by simp [member]) (fun head => apart x member ?_)
      exact List.mem_of_mem_head? head
    · intro x member different
      exact sameNext x (by simp [member]) different

/-- Linking a new node in front of a segment. The old first member is given the
new node as predecessor and no other link of an old member changes. -/
theorem segment_link (segment : Segment prev next before first l stop) (unique : l.Nodup)
    (back : prev' a = before) (forth : next' a = first)
    (relinked : ∀ b ∈ l.head?, prev' b = a)
    (samePrev : ∀ x ∈ l, x ∉ l.head? → prev' x = prev x)
    (sameNext : ∀ x ∈ l, next' x = next x) :
    Segment prev' next' before a (a :: l) stop := by
  refine ⟨rfl, back, ?_⟩
  rw [forth]
  exact segment_rebase segment unique relinked samePrev sameNext

end ListSegment
