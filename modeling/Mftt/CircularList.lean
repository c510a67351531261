import Mathlib.Data.List.Chain
import Mathlib.Data.List.Cycle
import Mathlib.Data.List.Induction
import Mathlib.Logic.Function.Basic
import Mftt.ListSegment

/-!
# Circular doubly linked lists

A list head and the nodes of a list each store a successor and a predecessor; following
the successors from the head meets the nodes in order and then the head again. Inserting a
node and deleting one write only the links around the place. The loops
that go through a list in either direction meet exactly its nodes.

Nodes and heads are addresses of one arbitrary type.
-/

namespace CircularList

open ListSegment Function List

universe u
variable {α : Type u} [DecidableEq α]

/-- The successor and the predecessor stored at each address. -/
structure Links (α : Type u) where
  next : α → α
  prev : α → α

/-- Insert a node between two others: the four writes in order. -/
def Links.insert (links : Links α) (new before after : α) : Links α where
  next := update (update links.next new after) before new
  prev := update (update links.prev after new) new before

/-- Add a node behind the head. -/
def Links.add (links : Links α) (new head : α) : Links α :=
  links.insert new head (links.next head)

/-- Add a node in front of another one, or of the head. -/
def Links.addTail (links : Links α) (new target : α) : Links α :=
  links.insert new (links.prev target) target

/-- Delete a node: its neighbours are linked with each other and its successor is cleared. -/
def Links.delete (links : Links α) (null node : α) : Links α where
  next := update (update links.next (links.prev node) (links.next node)) node null
  prev := update links.prev (links.next node) (links.prev node)

/-- The list of a head: its nodes in order. -/
structure Circle (links : Links α) (head : α) (nodes : List α) : Prop where
  segment : Segment links.prev links.next head (links.next head) nodes head
  last : links.prev head = nodes.getLastD head
  distinct : (head :: nodes).Nodup

/-- Go through a list by the given link until a node is accepted; count the nodes met. The bound
on the turns is given first. -/
def scan (link : α → α) (head : α) (accepts : α → Bool) : Nat → α → Nat → Option (Option α × Nat)
  | 0, _, _ => none
  | turns + 1, node, count =>
    if node = head then some (none, count)
    else if accepts node then some (some node, count + 1)
    else scan link head accepts turns (link node) (count + 1)

variable {links : Links α} {head : α} {nodes : List α}

section Circles

variable {null : α}

omit [DecidableEq α] in
theorem circle_empty (next : links.next head = head) (prev : links.prev head = head) :
    Circle links head [] :=
  ⟨next, prev, by simp⟩

omit [DecidableEq α] in
theorem circle_unique {nodes' : List α} (circle : Circle links head nodes)
    (circle' : Circle links head nodes') : nodes = nodes' :=
  segment_unique circle.segment circle'.segment (nodup_cons.mp circle.distinct).1
    (nodup_cons.mp circle'.distinct).1

/-- Two nodes are linked with each other. -/
def Linked (links : Links α) (first second : α) : Prop :=
  links.next first = second ∧ links.prev second = first

omit [DecidableEq α] in
theorem segment_chain {before stop : α} :
    Segment links.prev links.next before (links.next before) nodes stop ∧
      links.prev stop = nodes.getLastD before ↔
    (before :: (nodes ++ [stop])).IsChain (Linked links) := by
  induction nodes generalizing before with
  | nil => simp [Segment, Linked]
  | cons a rest ih =>
    rw [getLastD_cons, cons_append, isChain_cons_cons, ← ih, Linked]
    simp only [Segment, and_assoc]

omit [DecidableEq α] in
/-- The head and the nodes of a circle are a cycle, each one linked with the next. -/
theorem circle_iff_cycle : Circle links head nodes ↔
    Cycle.Chain (Linked links) ↑(head :: nodes) ∧ (head :: nodes).Nodup := by
  rw [Cycle.chain_coe_cons, ← segment_chain]
  exact ⟨fun circle => ⟨⟨circle.segment, circle.last⟩, circle.distinct⟩,
    fun ⟨⟨segment, last⟩, distinct⟩ => ⟨segment, last, distinct⟩⟩

omit [DecidableEq α] in
/-- A cycle can be read from any of its nodes on. -/
theorem cycle_rotate {left right : List α} :
    Cycle.Chain (Linked links) ↑(left ++ right) ↔ Cycle.Chain (Linked links) ↑(right ++ left) := by
  rw [Cycle.coe_eq_coe.mpr isRotated_append]

omit [DecidableEq α] in
/-- A cycle is a chain whose last node is linked with the first. -/
theorem cycle_iff_chain {first last : α} {front rest : List α}
    (split : first :: rest = front ++ [last]) : Cycle.Chain (Linked links) ↑(first :: rest) ↔
      (first :: rest).IsChain (Linked links) ∧ Linked links last first := by
  have final : (first :: rest).getLast (cons_ne_nil first rest) = last := by
    simp only [split, getLast_concat]
  rw [Cycle.chain_ne_nil _ (cons_ne_nil first rest), final, isChain_cons_cons, and_comm]

omit [DecidableEq α] in
/-- A chain stays linked if the successors stay of all but its last node, and the predecessors of
all but its first. -/
theorem chain_frame {links' : Links α} {chain : List α} (linked : chain.IsChain (Linked links))
    (next : ∀ x ∈ chain.dropLast, links'.next x = links.next x)
    (prev : ∀ x ∈ chain.tail, links'.prev x = links.prev x) : chain.IsChain (Linked links') := by
  induction linked with
  | nil => exact .nil
  | singleton => exact .singleton _
  | @cons_cons a b rest here linked ih =>
    have first : links'.next a = links.next a := next a mem_cons_self
    have second : links'.prev b = links.prev b := prev b mem_cons_self
    refine .cons_cons ⟨first.trans here.1, second.trans here.2⟩ (ih ?_ ?_)
    · exact fun x member => next x (mem_cons_of_mem a member)
    · exact fun x member => prev x (mem_cons_of_mem b member)

omit [DecidableEq α] in
theorem chain_frame_ends {links' : Links α} {first last : α} {front rest : List α}
    (linked : (first :: rest).IsChain (Linked links)) (distinct : (first :: rest).Nodup)
    (split : first :: rest = front ++ [last])
    (next : ∀ x ∈ first :: rest, x ≠ last → links'.next x = links.next x)
    (prev : ∀ x ∈ first :: rest, x ≠ first → links'.prev x = links.prev x) :
    (first :: rest).IsChain (Linked links') := by
  refine chain_frame linked (fun x member => ?_) fun x member => ?_
  · refine next x (dropLast_subset _ member) ?_
    rw [split, dropLast_concat] at member
    exact (nodup_append.mp (split ▸ distinct)).2.2 x member last (by simp)
  · refine prev x (mem_of_mem_tail member) ?_
    rintro rfl
    exact (nodup_cons.mp distinct).1 member

/-- A node is inserted in front of the first one. -/
theorem cycle_insert {new first : α} {rest : List α}
    (linked : Cycle.Chain (Linked links) ↑(first :: rest)) (distinct : (first :: rest).Nodup)
    (fresh : new ∉ first :: rest) :
    Cycle.Chain (Linked (links.addTail new first)) ↑(first :: (rest ++ [new])) := by
  obtain ⟨front, last, split⟩ : ∃ front last, first :: rest = front ++ [last] :=
    ⟨_, _, (dropLast_append_getLast (cons_ne_nil first rest)).symm⟩
  obtain ⟨chain, -, back⟩ := (cycle_iff_chain split).mp linked
  have other : ∀ x ∈ first :: rest, x ≠ new := fun x member same => fresh (same ▸ member)
  have notFirst : first ≠ new := other first (by simp)
  have notLast : last ≠ new := other last (by simp [split])
  have kept : (first :: rest).IsChain (Linked (links.insert new last first)) := by
    refine chain_frame_ends chain distinct split (fun x member notLast => ?_) fun x member notFirst => ?_
    · exact (update_of_ne notLast ..).trans (update_of_ne (other x member) ..)
    · exact (update_of_ne (other x member) ..).trans (update_of_ne notFirst ..)
  have final : first :: (rest ++ [new]) = (first :: rest) ++ [new] := rfl
  rw [Links.addTail, back, cycle_iff_chain final]
  refine ⟨?_, ?_, ?_⟩
  · rw [← cons_append, split, append_assoc]
    refine isChain_append_cons_cons.mpr ⟨split ▸ kept, ⟨?_, ?_⟩, .singleton new⟩
    · exact update_self ..
    · exact update_self ..
  · exact (update_of_ne notLast.symm ..).trans (update_self ..)
  · exact (update_of_ne notFirst ..).trans (update_self ..)

/-- Without its first node a cycle is closed. -/
theorem cycle_delete (null : α) {node first : α} {rest : List α}
    (linked : Cycle.Chain (Linked links) ↑(node :: first :: rest))
    (distinct : (node :: first :: rest).Nodup) :
    Cycle.Chain (Linked (links.delete null node)) ↑(first :: rest) := by
  obtain ⟨front, last, split⟩ : ∃ front last, first :: rest = front ++ [last] :=
    ⟨_, _, (dropLast_append_getLast (cons_ne_nil first rest)).symm⟩
  have whole : node :: first :: rest = (node :: front) ++ [last] := congrArg _ split
  obtain ⟨chain, -, back⟩ := (cycle_iff_chain whole).mp linked
  obtain ⟨⟨next, -⟩, chain⟩ := isChain_cons_cons.mp chain
  obtain ⟨outside, distinct⟩ := nodup_cons.mp distinct
  have other : ∀ x ∈ first :: rest, x ≠ node := fun x member same => outside (same ▸ member)
  rw [cycle_iff_chain split]
  refine ⟨chain_frame_ends chain distinct split (fun x member notLast => ?_)
    (fun x member notFirst => ?_), ?_, ?_⟩
  all_goals dsimp only [Links.delete]
  all_goals rw [next, back]
  · rw [update_of_ne (other x member), update_of_ne notLast]
  · rw [update_of_ne notFirst]
  · rw [update_of_ne (other last (by simp [split])), update_self]
  · rw [update_self]

/-- A node is inserted in front of the first one of `right`, or of the head if there is none. -/
theorem circle_insert {new target : α} {left right : List α}
    (circle : Circle links head (left ++ right)) (fresh : new ∉ head :: (left ++ right))
    (place : target = right.head?.getD head) :
    Circle (links.addTail new target) head (left ++ new :: right) := by
  obtain ⟨linked, distinct⟩ := circle_iff_cycle.mp circle
  -- Read from the target on, the new node comes last.
  obtain ⟨rest, split⟩ : ∃ rest, right ++ head :: left = target :: rest := by
    cases right with
    | nil => exact ⟨left, by rw [place]; rfl⟩
    | cons b rest => exact ⟨rest ++ head :: left, by rw [place]; rfl⟩
  have turned : (head :: left ++ right).Perm (target :: rest) := split ▸ perm_append_comm
  refine circle_iff_cycle.mpr ⟨?_, ?_⟩
  · rw [← cons_append, cycle_rotate, split] at linked
    have inserted := cycle_insert linked (turned.nodup_iff.mp distinct)
      fun member => fresh (turned.mem_iff.mpr member)
    rw [← cons_append, ← split, append_assoc, cycle_rotate, append_assoc] at inserted
    exact inserted
  · refine ((perm_middle.cons head).trans (.swap ..)).nodup_iff.mpr ?_
    exact nodup_cons.mpr ⟨fresh, distinct⟩

theorem circle_add {new : α} (circle : Circle links head nodes) (fresh : new ∉ head :: nodes) :
    Circle (links.add new head) head (new :: nodes) := by
  have back : links.prev (links.next head) = head := by
    cases nodes with
    | nil => rw [show links.next head = head from circle.segment, circle.last, getLastD_nil]
    | cons a rest => rw [circle.segment.1, circle.segment.2.1]
  have whole : Circle links head ([] ++ nodes) := circle
  have inserted := circle_insert whole fresh (segment_first circle.segment)
  rw [Links.addTail, back] at inserted
  exact inserted

/-- A deleted node leaves the circle of the others. -/
theorem circle_delete {node : α} {left right : List α}
    (circle : Circle links head (left ++ node :: right)) :
    Circle (links.delete null node) head (left ++ right) := by
  obtain ⟨linked, distinct⟩ := circle_iff_cycle.mp circle
  obtain ⟨first, rest, split⟩ : ∃ first rest, right ++ head :: left = first :: rest :=
    exists_cons_of_ne_nil (by simp)
  refine circle_iff_cycle.mpr ⟨?_, distinct.sublist ?_⟩
  · rw [← cons_append, cycle_rotate, cons_append, split] at linked
    have turned : (head :: left ++ node :: right).Perm (node :: first :: rest) :=
      split ▸ perm_append_comm
    have deleted := cycle_delete null linked (turned.nodup_iff.mp distinct)
    rw [← split, cycle_rotate] at deleted
    exact deleted
  · exact ((sublist_cons_self node right).append_left left).cons_cons head

end Circles

/-- Following one link from a node on meets the given nodes and then the head. -/
def Follows (link : α → α) (head : α) : α → List α → Prop
  | node, [] => node = head
  | node, a :: rest => node = a ∧ a ≠ head ∧ Follows link head (link a) rest

/-- A loop over a list finds the first node that is accepted; if there is none it counts all. -/
theorem scan_follows {link : α → α} (accepts : α → Bool) {turns : Nat} (count : Nat) {node : α}
    (follows : Follows link head node nodes) (enough : nodes.length < turns) :
    ∃ met, scan link head accepts turns node count = some (nodes.find? accepts, met) ∧
      (nodes.find? accepts = none → met = count + nodes.length) := by
  induction nodes generalizing turns node count with
  | nil =>
    obtain ⟨more, rfl⟩ : ∃ more, turns = more + 1 := ⟨turns - 1, by omega⟩
    have atHead : node = head := follows
    rw [scan, if_pos atHead]
    exact ⟨count, rfl, fun _ => rfl⟩
  | cons a rest ih =>
    obtain ⟨more, rfl⟩ : ∃ more, turns = more + 1 := ⟨turns - 1, by omega⟩
    obtain ⟨rfl, other, follows⟩ := follows
    rw [scan, if_neg other]
    by_cases accepted : accepts node = true
    · rw [if_pos accepted, List.find?_cons_of_pos accepted]
      exact ⟨count + 1, rfl, fun none => by contradiction⟩
    · rw [if_neg accepted, List.find?_cons_of_neg accepted]
      obtain ⟨met, scans, all⟩ :=
        ih (count + 1) follows (Nat.lt_of_succ_lt_succ enough)
      refine ⟨met, scans, fun none => ?_⟩
      rw [all none, length_cons]
      omega

omit [DecidableEq α] in
theorem follows_next (circle : Circle links head nodes) :
    Follows links.next head (links.next head) nodes := by
  have follows : ∀ rest before node, head ∉ rest →
      Segment links.prev links.next before node rest head →
      Follows links.next head node rest := by
    intro rest
    induction rest with
    | nil => exact fun _ _ _ segment => segment
    | cons a rest ih =>
      rintro before node outside ⟨rfl, _, tail⟩
      refine ⟨rfl, fun same => outside (same ▸ mem_cons_self), ?_⟩
      exact ih _ _ (fun member => outside (mem_cons_of_mem _ member)) tail
  exact follows nodes head _ (nodup_cons.mp circle.distinct).1 circle.segment

omit [DecidableEq α] in
theorem follows_prev (circle : Circle links head nodes) :
    Follows links.prev head (links.prev head) nodes.reverse := by
  have follows : ∀ front stop, head ∉ front →
      Segment links.prev links.next head (links.next head) front stop →
      Follows links.prev head (front.getLastD head) front.reverse := by
    intro front
    induction front using List.reverseRecOn with
    | nil => exact fun _ _ _ => rfl
    | append_singleton front a ih =>
      intro stop outside segment
      obtain ⟨middle, before, rfl, back, _⟩ := segment_append.mp segment
      rw [reverse_append, getLastD_concat]
      refine ⟨rfl, fun same => outside (by simp [same]), ?_⟩
      rw [back]
      exact ih _ (fun member => outside (by simp [member])) before
  rw [circle.last]
  exact follows nodes head (nodup_cons.mp circle.distinct).1 circle.segment

end CircularList
