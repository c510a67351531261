import Mathlib.Data.List.Nodup

/-!
# The cyclic order of a list from a cursor

A list is read from behind a cursor to its end and then from its start up to the cursor, which
comes last. When the cursor moves to an entry of this reading, what stood behind the entry comes
first and what stood before it comes after. Entries may join at the start of the list and leave
it without a change in the order of the others.
-/

namespace CyclicOrder

open List

section

variable {α : Type} [DecidableEq α]

/-- The entries behind the cursor. -/
def behind (cursor : α) (list : List α) : List α := (list.dropWhile (· ≠ cursor)).tail

/-- The entries from the first to the cursor. -/
def upTo (cursor : α) : List α → List α
  | [] => []
  | entry :: rest => if entry = cursor then [entry] else entry :: upTo cursor rest

/-- The list read from behind the cursor, around to the cursor. -/
def order (cursor : α) (list : List α) : List α := behind cursor list ++ upTo cursor list

variable {cursor entry other : α} {list before after : List α}

theorem behind_split (fresh : cursor ∉ before) :
    behind cursor (before ++ cursor :: after) = after := by
  have passed : ∀ entry ∈ before, decide (entry ≠ cursor) = true := by
    intro entry member
    refine decide_eq_true ?_
    rintro rfl
    exact fresh member
  rw [behind, dropWhile_append_of_pos passed, dropWhile_cons_of_neg (by simp)]
  rfl

theorem upTo_subset (cursor : α) (list : List α) : upTo cursor list ⊆ list := by
  induction list with
  | nil => exact fun _ member => member
  | cons first rest ih =>
    rw [upTo]
    split
    · intro entry member
      rw [mem_singleton.mp member]
      exact mem_cons_self
    · intro entry member
      cases member with
      | head => exact mem_cons_self
      | tail _ inside => exact mem_cons_of_mem _ (ih inside)

theorem upTo_split (fresh : cursor ∉ before) :
    upTo cursor (before ++ cursor :: after) = before ++ [cursor] := by
  induction before with
  | nil => exact if_pos rfl
  | cons first rest ih =>
    obtain ⟨different, fresh⟩ := not_or.mp (mt mem_cons.mpr fresh)
    rw [cons_append, upTo, if_neg (Ne.symm different), ih fresh, cons_append]

theorem order_split (fresh : cursor ∉ before) :
    order cursor (before ++ cursor :: after) = after ++ (before ++ [cursor]) := by
  rw [order, behind_split fresh, upTo_split fresh]

section

variable (member : cursor ∈ list) (distinct : list.Nodup)
include member distinct

omit [DecidableEq α] in
theorem exists_split : ∃ before after, list = before ++ cursor :: after ∧ cursor ∉ before := by
  obtain ⟨before, after, rfl⟩ := append_of_mem member
  refine ⟨before, after, rfl, fun inside => ?_⟩
  exact (nodup_append.mp distinct).2.2 cursor inside cursor mem_cons_self rfl

theorem order_perm : (order cursor list).Perm list := by
  obtain ⟨before, after, rfl, fresh⟩ := exists_split member distinct
  rw [order_split fresh]
  calc (after ++ (before ++ [cursor])).Perm ((before ++ [cursor]) ++ after) :=
        perm_append_comm
    _ = before ++ cursor :: after := by rw [append_assoc, singleton_append]

theorem mem_order : entry ∈ order cursor list ↔ entry ∈ list :=
  (order_perm member distinct).mem_iff

theorem order_nodup : (order cursor list).Nodup :=
  (order_perm member distinct).nodup_iff.mpr distinct

end

theorem order_advance_before {between left : List α} (fresh : cursor ∉ before)
    (distinct : (before ++ cursor :: after).Nodup)
    (reads : before ++ [cursor] = between ++ entry :: left) :
    order entry (before ++ cursor :: after) = left ++ (after ++ between ++ [entry]) := by
  rcases eq_nil_or_concat left with rfl | ⟨rest, last, rfl⟩
  · obtain ⟨rfl, same⟩ := append_inj' reads rfl
    obtain rfl := head_eq_of_cons_eq same
    rw [order_split fresh, nil_append, append_assoc]
  · rw [concat_eq_append, ← cons_append, ← append_assoc] at reads
    obtain ⟨rfl, same⟩ := append_inj' reads rfl
    obtain rfl := head_eq_of_cons_eq same
    rw [append_assoc] at distinct
    have apart : entry ∉ between := fun inside =>
      (nodup_append.mp distinct).2.2 entry inside entry mem_cons_self rfl
    rw [append_assoc, cons_append, order_split apart]
    simp

section

variable (member : cursor ∈ list) (distinct : list.Nodup)
include member distinct

/-- When the cursor moves to an entry, what stood behind it comes first. -/
theorem order_advance {passed left : List α} (reads : order cursor list = passed ++ entry :: left) :
    order entry list = left ++ (passed ++ [entry]) := by
  obtain ⟨before, after, rfl, fresh⟩ := exists_split member distinct
  rw [order_split fresh] at reads
  rcases append_eq_append_iff.mp reads with ⟨between, rfl, tail⟩ | ⟨between, rfl, tail⟩
  · exact order_advance_before fresh distinct tail
  · cases between with
    | nil =>
      have reads : before ++ [cursor] = [] ++ entry :: left := tail.symm
      rw [append_nil] at distinct ⊢
      rw [order_advance_before fresh distinct reads, append_nil]
    | cons first rest =>
      -- The entry stands behind the cursor.
      obtain ⟨rfl, rfl⟩ := List.cons.inj tail
      have apart : entry ∉ before ++ cursor :: passed := by
        rw [← cons_append, ← append_assoc] at distinct
        exact fun inside => (nodup_append.mp distinct).2.2 entry inside entry
          mem_cons_self rfl
      rw [← cons_append, ← append_assoc, order_split apart]
      simp

/-- An entry joins at the start. -/
theorem order_cons (new : entry ≠ cursor) :
    (order cursor list).Sublist (order cursor (entry :: list)) := by
  obtain ⟨before, after, rfl, fresh⟩ := exists_split member distinct
  have fresh' : cursor ∉ entry :: before := by simp [Ne.symm new, fresh]
  rw [order_split fresh, ← cons_append, order_split fresh']
  exact (List.Sublist.refl after).append (sublist_cons_self entry _)

theorem order_erase (different : entry ≠ cursor) :
    order cursor (list.erase entry) = (order cursor list).erase entry := by
  obtain ⟨before, after, rfl, fresh⟩ := exists_split member distinct
  have apart : entry ∈ after → entry ∉ before := fun inside inside' =>
    (nodup_append.mp distinct).2.2 entry inside' entry (mem_cons_of_mem _ inside) rfl
  have single : [cursor].erase entry = [cursor] :=
    erase_of_not_mem (by simpa using different)
  rw [order_split fresh]
  by_cases inside : entry ∈ before
  · have fresh' : cursor ∉ before.erase entry := fun still => fresh (mem_of_mem_erase still)
    have behind : entry ∉ after := fun after => apart after inside
    rw [erase_append_left _ inside, order_split fresh', erase_append_right _ behind,
      erase_append_left _ inside]
  · rw [erase_append_right _ inside, erase_cons_tail (by simpa using Ne.symm different),
      order_split fresh]
    by_cases behind : entry ∈ after
    · rw [erase_append_left _ behind]
    · rw [erase_of_not_mem behind, erase_append_right _ behind,
        erase_append_right _ inside, single]

theorem pair_cursor (inside : entry ∈ list) (different : entry ≠ cursor) :
    [entry, cursor].Sublist (order cursor list) := by
  obtain ⟨before, after, rfl, fresh⟩ := exists_split member distinct
  have first : entry ∈ after ++ before := by
    rcases mem_append.mp inside with inside | inside
    · exact mem_append_right _ inside
    · rcases mem_cons.mp inside with same | inside
      · exact absurd same different
      · exact mem_append_left _ inside
  rw [order_split fresh, ← append_assoc]
  exact (singleton_sublist.mpr first).append (List.Sublist.refl [cursor])

end

omit [DecidableEq α] in
/-- Of two entries in this order, the first stands behind what was passed if it was not
passed itself. -/
theorem pair_left {passed left : List α} {first second : α}
    (ordered : [first, second].Sublist (passed ++ entry :: left)) (waits : first ∉ passed)
    (different : first ≠ entry) : [first, second].Sublist left := by
  induction passed with
  | nil => exact (cons_sublist_cons'.mp ordered).resolve_right fun same => different same.1
  | cons head rest ih =>
    obtain ⟨apart, waits⟩ := not_or.mp (mt mem_cons.mpr waits)
    exact ih ((cons_sublist_cons'.mp ordered).resolve_right fun same => apart same.1) waits

end

end CyclicOrder
