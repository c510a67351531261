import Mathlib.Algebra.Group.Nat.Defs
import Mathlib.Data.List.GetD
import Mathlib.Logic.Function.Basic

/-!
# Slices of an addressed content

A content gives the element at every address. A slice is the list of the elements at
consecutive addresses. A copy that proceeds piece by piece puts slices together; it has
copied a slice of one content exactly when its pieces are slices of that content.
-/

namespace Slices

variable {α : Type*} {content content' : Nat → α} {start start' count more : Nat}

/-- The elements at `count` addresses from `start` on. -/
def slice (content : Nat → α) (start count : Nat) : List α :=
  (List.range count).map fun k => content (start + k)

@[simp] theorem length_slice : (slice content start count).length = count := by
  simp [slice]

@[simp] theorem slice_zero : slice content start 0 = [] := rfl

theorem slice_add :
    slice content start (count + more) =
      slice content start count ++ slice content (start + count) more := by
  simp [slice, List.range_add, Nat.add_assoc]

/-- Two slices of one length agree exactly when their elements do. -/
theorem slice_eq_iff :
    slice content start count = slice content' start' count ↔
      ∀ k, k < count → content (start + k) = content' (start' + k) := by
  simp [slice]

/-- The content with a list of elements put at consecutive addresses from `start` on. -/
def overwrite (content : Nat → α) (start : Nat) (elements : List α) (k : Nat) : α :=
  if start ≤ k then elements.getD (k - start) (content k) else content k

/-- Two contents that agree at one place, seen from different bases, agree there after the same
elements were put into both. -/
theorem overwrite_shift {base k : Nat} (elements : List α)
    (same : content k = content' (base + k)) :
    overwrite content start elements k =
      overwrite content' (base + start) elements (base + k) := by
  rw [overwrite, overwrite, same, Nat.add_sub_add_left]
  simp only [Nat.add_le_add_iff_left]

variable {elements : List α} {source : Nat → α}

theorem overwrite_outside {k : Nat} (outside : k < start ∨ start + elements.length ≤ k) :
    overwrite content start elements k = content k := by
  rw [overwrite]
  split
  · exact List.getD_eq_default _ _ (by omega)
  · rfl

@[simp] theorem overwrite_nil : overwrite content start [] = content := by
  funext k
  exact overwrite_outside (by rw [List.length_nil]; omega)

theorem update_eq_overwrite (element : α) :
    Function.update content start element = overwrite content start [element] := by
  funext k
  by_cases same : k = start
  · subst same
    simp [overwrite]
  · rw [Function.update_of_ne same, overwrite_outside (by rw [List.length_singleton]; omega)]

/-- The slice that was put into a content. -/
theorem slice_overwrite (elements : List α) :
    slice (overwrite content start elements) start elements.length = elements := by
  apply List.ext_getElem
  · exact length_slice
  · intro k less less'
    simp [slice, overwrite, less']

theorem overwrite_append (first second : List α) :
    overwrite (overwrite content start first) (start + first.length) second =
      overwrite content start (first ++ second) := by
  funext k
  by_cases behind : start + first.length ≤ k
  · have split : k - start - first.length = k - (start + first.length) := by omega
    rw [overwrite, if_pos behind, overwrite_outside (.inr behind), overwrite, if_pos (by omega),
      List.getD_append_right _ _ _ _ (by omega), split]
  · rw [overwrite_outside (.inl (by omega))]
    by_cases before : start ≤ k
    · rw [overwrite, overwrite, if_pos before, if_pos before, List.getD_append _ _ _ _ (by omega)]
    · rw [overwrite, overwrite, if_neg before, if_neg before]

/-- The same with the last piece first. -/
theorem overwrite_prepend (first second : List α) :
    overwrite (overwrite content (start + first.length) second) start first =
      overwrite content start (first ++ second) := by
  rw [← overwrite_append]
  funext k
  by_cases behind : start + first.length ≤ k
  · rw [overwrite_outside (.inr behind), overwrite, overwrite, if_pos behind, if_pos behind,
      overwrite_outside (.inr behind)]
  · simp only [overwrite, if_neg behind]

/-- Elements that are already there change nothing, and no others do. -/
theorem overwrite_eq_self_iff :
    overwrite content start elements = content ↔
      slice content start elements.length = elements := by
  constructor
  · intro same
    have put : slice (overwrite content start elements) start elements.length = elements :=
      slice_overwrite elements
    rwa [same] at put
  · intro there
    funext k
    by_cases inside : start ≤ k ∧ k < start + elements.length
    · have element : elements[k - start]? = some (content k) := by
        rw [← there, slice, List.getElem?_map, List.getElem?_range (by omega), Option.map_some,
          Nat.add_sub_cancel' inside.1]
      rw [overwrite, if_pos inside.1, List.getD_eq_getElem?_getD, element, Option.getD_some]
    · exact overwrite_outside (by omega)

theorem overwrite_slice (content : Nat → α) (start count : Nat) :
    overwrite content start (slice content start count) = content :=
  overwrite_eq_self_iff.mpr (by rw [length_slice])

theorem overwrite_slices (content source : Nat → α) (start first count more : Nat) :
    overwrite (overwrite content start (slice source first count)) (start + count)
        (slice source (first + count) more) =
      overwrite content start (slice source first (count + more)) := by
  have joined : overwrite (overwrite content start (slice source first count))
      (start + (slice source first count).length) (slice source (first + count) more) = _ :=
    overwrite_append _ _
  rwa [length_slice, ← slice_add] at joined

theorem slice_overwrite_apart (apart : start' + count ≤ start ∨ start + elements.length ≤ start') :
    slice (overwrite content start elements) start' count = slice content start' count :=
  slice_eq_iff.mpr fun _ _ => overwrite_outside (by omega)

/-- An element of a slice that was put into a content. -/
theorem overwrite_slice_inside {first k : Nat} (behind : start ≤ k) (before : k < start + count) :
    overwrite content start (slice source first count) k = source (first + (k - start)) := by
  have element : (slice source first count)[k - start]? = some (source (first + (k - start))) := by
    rw [slice, List.getElem?_map, List.getElem?_range (by omega), Option.map_some]
  rw [overwrite, if_pos behind, List.getD_eq_getElem?_getD, element, Option.getD_some]

/-- A part of a slice that was put into a content. -/
theorem slice_overwrite_within {first size : Nat} (behind : start ≤ start')
    (before : start' + count ≤ start + size) :
    slice (overwrite content start (slice source first size)) start' count =
      slice source (first + (start' - start)) count := by
  refine slice_eq_iff.mpr fun k less => ?_
  rw [overwrite_slice_inside (by omega) (by omega)]
  congr 1
  omega

theorem overwrite_window (content : Nat → α) {size : Nat} (window : Nat → α)
    (inside : start' + elements.length ≤ size) :
    overwrite content start (slice (overwrite window start' elements) 0 size) =
      overwrite (overwrite content start (slice window 0 size)) (start + start') elements := by
  funext k
  by_cases within : start ≤ k ∧ k < start + size
  · rw [overwrite_slice_inside within.1 within.2, Nat.zero_add]
    by_cases put : start + start' ≤ k ∧ k < start + start' + elements.length
    · have moved : k - start - start' = k - (start + start') := by omega
      rw [overwrite, overwrite, if_pos put.1, if_pos (by omega), moved]
      simp only [List.getD_eq_getElem?_getD, List.getElem?_eq_getElem
        (show k - (start + start') < elements.length by omega), Option.getD_some]
    · rw [overwrite_outside (by omega), overwrite_outside (by omega),
        overwrite_slice_inside within.1 within.2, Nat.zero_add]
  · rw [overwrite_outside (by rw [length_slice]; omega), overwrite_outside (by omega),
      overwrite_outside (by rw [length_slice]; omega)]

end Slices
