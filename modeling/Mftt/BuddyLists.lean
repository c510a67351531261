import Mftt.BuddyAllocator
import Mftt.ListSegment

/-!
# The free lists of the buddy allocator

Each free list is a list segment from its head to NULL through the nodes stored
in the free blocks. `remove_from_free_list` and `attach_to_free_list` touch the
links of one list only; since no address is on two lists, every other list stays
as it is. The results below say so for all orders at once, for any assignment of
block addresses to orders in which no address occurs twice.
-/

namespace Mftt

open ListSegment Function

namespace MemoryInfo

/-- The free list of an order visits exactly `blocks`, in this order, and no
block is at address zero. -/
def Lists (m : MemoryInfo) (order : Nat) (blocks : List Nat) : Prop :=
  Segment m.prevOf m.nextOf 0 (m.freeList order) blocks 0 ∧ 0 ∉ blocks

/-- Every free list is given by `blocks`, and no address is on two of them or
twice on one. -/
structure AllLists (m : MemoryInfo) (blocks : Nat → List Nat) : Prop where
  lists : ∀ order, m.Lists order (blocks order)
  unique : ∀ order, (blocks order).Nodup
  apart : ∀ order other x, x ∈ blocks order → x ∈ blocks other → order = other

/-- `m'` is `m` up to links and list heads. -/
def SameButLinks (m m' : MemoryInfo) : Prop :=
  m' = { m with nodes := m'.nodes, freeList := m'.freeList }

theorem SameButLinks.infos {m m' : MemoryInfo} (same : m.SameButLinks m') :
    m'.pagesInfo = m.pagesInfo := by
  rw [same]

end MemoryInfo

/-- What `remove_from_free_list` stores, as one description of all its branches:
the predecessor takes over the successor and the successor the predecessor, when
there are any; without a predecessor the list head takes over the successor. -/
theorem remove_links (m : MemoryInfo) (p order : Nat) (fits : BlockFits m p order)
    (valid : p ≠ 0) (headed : m.prevOf p = 0 → m.freeList order = p) :
    ∃ m', removeFromFreeList m p order = .ok m' ∧ m.SameButLinks m' ∧
      (∀ x, m'.nextOf x = if x = p then 0
        else if m.prevOf p ≠ 0 ∧ x = m.prevOf p then m.nextOf p else m.nextOf x) ∧
      (∀ x, m'.prevOf x = if x = p then 0
        else if m.nextOf p ≠ 0 ∧ x = m.nextOf p then m.prevOf p else m.prevOf x) ∧
      (∀ k, m'.freeList k = if m.prevOf p = 0 ∧ k = order then m.nextOf p else m.freeList k) := by
  simp only [removeFromFreeList, assert_true _ fits, not_null_of_ne valid]
  by_cases first : m.prevOf p = 0
  · simp only [first, headed first, ne_eq]
    refine ⟨_, rfl, ?_, ?_, ?_, ?_⟩
    · split <;> rfl
    · split <;> simp
    · split <;> simp_all
    · split <;> simp_all
  · simp only [first, ne_eq]
    refine ⟨_, rfl, ?_, ?_, ?_, ?_⟩
    · split <;> rfl
    · split <;> simp
    · split <;> simp_all
    · split <;> simp_all

/-- What `attach_to_free_list` stores: the block becomes the head, in front of the
old head. -/
theorem attach_links (m : MemoryInfo) (p order : Nat) (fits : BlockFits m p order)
    (valid : p ≠ 0) :
    ∃ m', attachToFreeList m p order = .ok m' ∧ m.SameButLinks m' ∧
      (∀ x, m'.nextOf x = if x = p then m.freeList order else m.nextOf x) ∧
      (∀ x, m'.prevOf x = if x = p then 0
        else if m.freeList order ≠ 0 ∧ x = m.freeList order then p else m.prevOf x) ∧
      (∀ k, m'.freeList k = if k = order then p else m.freeList k) := by
  simp only [attachToFreeList, assert_true _ fits, not_null_of_ne valid]
  refine ⟨_, rfl, ?_, ?_, ?_, ?_⟩
  · split <;> rfl
  · split <;> simp
  · split <;> simp_all
  · split <;> simp

variable {m : MemoryInfo} {blocks : Nat → List Nat}

theorem neighbours_listed {order p : Nat} {l r : List Nat} (listed : m.Lists order (l ++ p :: r)) :
    m.prevOf p = l.getLastD 0 ∧ m.nextOf p = r.head?.getD 0 ∧
      (m.prevOf p = 0 ↔ l = []) ∧ (m.prevOf p = 0 → m.freeList order = p) := by
  obtain ⟨segment, positive⟩ := listed
  obtain ⟨middle, left, same, back, right⟩ := segment_append.mp segment
  subst same
  have first : m.prevOf middle = 0 ↔ l = [] := by
    rw [back]
    constructor
    · intro zero
      cases l with
      | nil => rfl
      | cons b rest =>
        rw [List.getLastD_cons] at zero
        have last : rest.getLastD b ∈ b :: rest := List.getLastD_mem_cons
        rw [zero] at last
        exact absurd (List.mem_append_left _ last) positive
    · rintro rfl
      rfl
  refine ⟨back, segment_first right, first, fun zero => ?_⟩
  rw [first.mp zero] at left
  exact left

/-- `remove_from_free_list` on a listed block returns, drops the block from its
list, keeps all other lists, and writes to no node outside the lists. -/
theorem remove_lists {p order : Nat} (all : m.AllLists blocks) (listed : p ∈ blocks order)
    (fits : BlockFits m p order) :
    ∃ m', removeFromFreeList m p order = .ok m' ∧ m.SameButLinks m' ∧
      (∀ k, m'.Lists k (update blocks order ((blocks order).erase p) k)) ∧
      ∀ x, (∀ k, x ∉ blocks k) → m'.nextOf x = m.nextOf x ∧ m'.prevOf x = m.prevOf x := by
  obtain ⟨l, r, notBefore, split, erased⟩ := List.exists_erase_eq listed
  have here := all.lists order
  have uniqueHere := all.unique order
  rw [split] at here uniqueHere
  obtain ⟨back, forth, first, headed⟩ := neighbours_listed here
  have valid : p ≠ 0 := fun zero => here.2 (by simp [zero])
  have prevMember : m.prevOf p ≠ 0 → m.prevOf p ∈ l := by
    intro some
    rw [back] at some ⊢
    exact (List.mem_cons.mp List.getLastD_mem_cons).resolve_left some
  have nextMember : m.nextOf p ≠ 0 → m.nextOf p ∈ r := by
    rw [forth]
    cases r with
    | nil => simp
    | cons b rest => simp
  obtain ⟨m', returns, same, nexts, prevs, heads⟩ := remove_links m p order fits valid headed
  -- a node that is neither the block nor one of its neighbours keeps its links
  have kept : ∀ x, x ∉ blocks order → m'.nextOf x = m.nextOf x ∧ m'.prevOf x = m.prevOf x := by
    intro x absent
    rw [split] at absent
    simp only [List.mem_append, List.mem_cons, not_or] at absent
    rw [nexts, prevs, if_neg absent.2.1, if_neg absent.2.1, if_neg, if_neg]
    · exact ⟨rfl, rfl⟩
    · rintro ⟨some, rfl⟩
      exact absent.2.2 (nextMember some)
    · rintro ⟨some, rfl⟩
      exact absent.1 (prevMember some)
  refine ⟨m', returns, same, ?_, fun x absent => kept x (absent order)⟩
  intro k
  by_cases other : k = order
  · subst other
    rw [update_self, erased]
    have positive : 0 ∉ l ++ r := by
      intro zero
      refine here.2 (List.mem_append.mpr ?_)
      exact (List.mem_append.mp zero).imp_right (List.mem_cons_of_mem p)
    refine ⟨?_, positive⟩
    have differs : ∀ x ∈ l ++ r, x ≠ p := by
      rintro x member rfl
      exact (List.nodup_middle.mp uniqueHere).notMem member
    have start : m'.freeList k = if l = [] then m.nextOf p else m.freeList k := by
      simp [heads k, first]
    rw [start]
    refine segment_unlink here.1 uniqueHere ?_ ?_ ?_ ?_ (fun zero => here.2 (by simp [zero]))
    · intro nonempty
      have some : m.prevOf p ≠ 0 := fun zero => nonempty (first.mp zero)
      rw [← back, nexts, if_neg (differs _ (by simp [prevMember some])), if_pos ⟨some, rfl⟩]
    · intro b head
      have same : m.nextOf p = b := by
        rw [forth, Option.mem_def.mp head]
        rfl
      have member : b ∈ r := List.mem_of_mem_head? head
      have some : m.nextOf p ≠ 0 := by
        rintro zero
        exact here.2 (by simp [← zero, same, member])
      rw [prevs, if_neg (differs b (by simp [member])), if_pos ⟨some, same.symm⟩]
    · intro x member notHead
      rw [prevs, if_neg (differs x member), if_neg]
      rintro ⟨some, rfl⟩
      refine notHead ?_
      rw [forth] at some ⊢
      cases r with
      | nil => exact absurd rfl some
      | cons b rest => simp
    · intro x member different
      rw [nexts, if_neg (differs x member), if_neg]
      rintro ⟨-, rfl⟩
      exact different back
  · rw [update_of_ne other]
    obtain ⟨segment, positive⟩ := all.lists k
    have outside : ∀ x ∈ blocks k, x ∉ blocks order :=
      fun x member also => other (all.apart k order x member also)
    refine ⟨?_, positive⟩
    rw [heads k, if_neg (fun both => other both.2)]
    exact segment_congr segment (fun x member => (kept x (outside x member)).2)
      (fun x member => (kept x (outside x member)).1)

/-- `attach_to_free_list` on a block that is on no list returns, puts the block in
front of its list, keeps all other lists, and writes to no node outside the lists
other than the block's own. -/
theorem attach_lists {p order : Nat} (all : m.AllLists blocks) (valid : p ≠ 0)
    (unlisted : ∀ k, p ∉ blocks k) (fits : BlockFits m p order) :
    ∃ m', attachToFreeList m p order = .ok m' ∧ m.SameButLinks m' ∧
      (∀ k, m'.Lists k (update blocks order (p :: blocks order) k)) ∧
      ∀ x, x ≠ p → (∀ k, x ∉ blocks k) →
        m'.nextOf x = m.nextOf x ∧ m'.prevOf x = m.prevOf x := by
  obtain ⟨m', returns, same, nexts, prevs, heads⟩ := attach_links m p order fits valid
  have headMember : m.freeList order ≠ 0 → m.freeList order ∈ (blocks order).head? := by
    have start := segment_first (all.lists order).1
    cases found : (blocks order).head? with
    | none => simp [start, found]
    | some b => simp [start, found]
  have kept : ∀ x, x ≠ p → x ∉ (blocks order).head? →
      m'.nextOf x = m.nextOf x ∧ m'.prevOf x = m.prevOf x := by
    intro x different notHead
    rw [nexts, prevs, if_neg different, if_neg different, if_neg]
    · exact ⟨rfl, rfl⟩
    · rintro ⟨some, rfl⟩
      exact notHead (headMember some)
  refine ⟨m', returns, same, ?_, ?_⟩
  · intro k
    obtain ⟨segment, positive⟩ := all.lists k
    have differs : ∀ x ∈ blocks k, x ≠ p := fun x member same => unlisted k (same ▸ member)
    by_cases other : k = order
    · subst other
      rw [update_self, MemoryInfo.Lists, heads, if_pos rfl]
      refine ⟨segment_link segment (all.unique k) ?_ ?_ ?_ ?_ ?_, ?_⟩
      · rw [prevs, if_pos rfl]
      · rw [nexts, if_pos rfl]
      · intro b head
        have member : b ∈ blocks k := List.mem_of_mem_head? head
        have start : m.freeList k = b := by
          rw [segment_first segment, Option.mem_def.mp head]
          rfl
        have some : m.freeList k ≠ 0 := fun zero => positive (by rwa [← zero, start])
        rw [prevs, if_neg (differs b member), if_pos ⟨some, start.symm⟩]
      · intro x member notHead
        exact (kept x (differs x member) notHead).2
      · intro x member
        rw [nexts, if_neg (differs x member)]
      · simp only [List.mem_cons, not_or]
        exact ⟨valid.symm, positive⟩
    · rw [update_of_ne other, MemoryInfo.Lists, heads, if_neg other]
      have outside : ∀ x ∈ blocks k, x ∉ (blocks order).head? := fun x member head =>
        other (all.apart k order x member (List.mem_of_mem_head? head))
      refine ⟨segment_congr segment ?_ ?_, positive⟩
      · exact fun x member => (kept x (differs x member) (outside x member)).2
      · exact fun x member => (kept x (differs x member) (outside x member)).1
  · intro x different absent
    exact kept x different (fun head => absent order (List.mem_of_mem_head? head))

end Mftt
