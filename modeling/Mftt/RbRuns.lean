import Mathlib.Data.Finset.Card
import Mftt.RbSplice

/-!
# Histories of a red-black tree

What a tree has to satisfy is said here about the memory alone: an in-order walk, the
parent pointers and the colours that a reader of the nodes finds. Any history of
insertions and removals that starts from the empty tree keeps it. Between two calls
the owner of the nodes may change those that are not in the tree.
-/

namespace Mftt

open RedBlack ColorTree

/-- The nodes that an in-order walk from `p` meets, for a bounded depth. -/
def inorderWalk : Nat → RbTree → NodePtr → Except Fault (List NodePtr)
  | 0, _, p => if p = .null then pure [] else .error .unfinished
  | turns + 1, t, p =>
    if p = .null then pure []
    else do
      let n ← t.get p
      let left ← inorderWalk turns t n.L
      let right ← inorderWalk turns t n.R
      pure (left ++ p :: right)

/-- There is a way from `p` down to a NULL pointer with `n` black nodes. -/
inductive BlackNodes (t : RbTree) : NodePtr → Nat → Prop where
  | null : BlackNodes t .null 0
  | down {p : NodePtr} {n : Nat} (d : Dir) : p ≠ .null → BlackNodes t ((t.nodes p).child d) n →
      BlackNodes t p (n + if (t.nodes p).getColor = .black then 1 else 0)

/-- The tree in memory is a red-black search tree of the given nodes. -/
structure TreeSound (t : RbTree) (nodes : Finset NodePtr) : Prop where
  /-- An in-order walk meets the nodes, each once and with increasing keys. -/
  walk : ∃ order : List NodePtr, order.toFinset = nodes ∧
    order.Pairwise (fun p q => (t.nodes p).key < (t.nodes q).key) ∧
    ∀ turns, nodes.card ≤ turns → inorderWalk turns t t.root = .ok order
  /-- Every child points to its parent. -/
  parent : ∀ p ∈ nodes, ∀ d, (t.nodes p).child d ≠ .null →
    (t.nodes ((t.nodes p).child d)).getParent = p
  /-- The root is black and has no parent. -/
  root : t.root ≠ .null → (t.nodes t.root).getParent = .null ∧ (t.nodes t.root).getColor = .black
  /-- A red node has no red child. -/
  red : ∀ p ∈ nodes, ∀ d, (t.nodes p).getColor = .red → (t.nodes p).child d ≠ .null →
    (t.nodes ((t.nodes p).child d)).getColor = .black
  /-- All ways from the root to a NULL pointer have the same number of black nodes. -/
  height : ∃ n, ∀ k, BlackNodes t t.root k → k = n

/-- The trees that a history of calls leads to, with the nodes in them. A call may take
any number of turns from a bound on, which is larger than the number of nodes. -/
inductive TreeReachable : RbTree → Finset NodePtr → Prop where
  | empty {t : RbTree} : t.root = .null → TreeReachable t ∅
  | owner {t t' : RbTree} {nodes : Finset NodePtr} : TreeReachable t nodes →
      t'.root = t.root → (∀ p ∈ nodes, t'.nodes p = t.nodes p) → TreeReachable t' nodes
  | insert {t t' : RbTree} {nodes : Finset NodePtr} {n result : NodePtr} {turns : Nat} :
      TreeReachable t nodes → n ≠ .null → n ∉ nodes → nodes.card + 2 ≤ turns →
      rbInsert turns t n = .ok (result, t') →
      TreeReachable t' (if result = .null then insert n nodes else nodes)
  | remove {t t' : RbTree} {nodes : Finset NodePtr} {n : NodePtr} {turns : Nat} :
      TreeReachable t nodes → n ∈ nodes → nodes.card + 2 ≤ turns →
      rbRemove turns t n = .ok t' → TreeReachable t' (nodes.erase n)

variable {t : RbTree} {s : ColorTree NodePtr}

variable {p n : NodePtr} {t' : RbTree}

section Sound

variable {parent : NodePtr}

/-- A walk over a tree in memory meets its nodes in order. -/
theorem walk_rep (turns : Nat) (enough : s.inorder.length ≤ turns) (rep : Rep t parent s) :
    inorderWalk turns t (rootPtr s) = .ok s.inorder := by
  induction s generalizing parent turns with
  | nil => cases turns <;> rfl
  | node c l p r left right =>
    simp only [inorder, List.length_append, List.length_cons] at enough
    obtain ⟨turns, rfl⟩ : ∃ k, turns = k + 1 := ⟨turns - 1, by omega⟩
    obtain ⟨valid, stores, repLeft, repRight⟩ := rep
    have goLeft : (t.nodes p).L = rootPtr l := stores.towards
    have goRight : (t.nodes p).R = rootPtr r := stores.away
    rw [rootPtr, inorderWalk, if_neg valid, RbTree.get_of_ne valid, bind_ok, goLeft, goRight,
      left turns (by omega) repLeft, right turns (by omega) repRight]
    rfl

theorem BlackNodes.first {k : Nat} (down : BlackNodes t p k) (valid : p ≠ .null) :
    ∃ d n, BlackNodes t ((t.nodes p).child d) n ∧
      k = n + if (t.nodes p).getColor = .black then 1 else 0 := by
  cases down with
  | null => exact absurd rfl valid
  | down d _ rest => exact ⟨d, _, rest, rfl⟩

theorem black_nodes_balanced {c : Color} {n k : Nat} (rep : Rep t parent s)
    (balanced : s.Balanced c n) (down : BlackNodes t (rootPtr s) k) : k = n := by
  induction balanced generalizing parent k with
  | nil =>
    cases down with
    | null => rfl
    | down _ valid => exact absurd rfl valid
  | red _ _ left right =>
    obtain ⟨valid, stores, repLeft, repRight⟩ := rep
    obtain ⟨d, n, rest, rfl⟩ := down.first valid
    simp only [rootPtr, stores.color]
    cases d with
    | left => exact left repLeft (stores.towards ▸ rest)
    | right => exact right repRight (stores.away ▸ rest)
  | black _ _ left right =>
    obtain ⟨valid, stores, repLeft, repRight⟩ := rep
    obtain ⟨d, n, rest, rfl⟩ := down.first valid
    simp only [rootPtr, stores.color, if_true, Nat.add_right_cancel_iff]
    cases d with
    | left => exact left repLeft (stores.towards ▸ rest)
    | right => exact right repRight (stores.away ▸ rest)

/-- What a node of a valid tree stores, in either direction, and the subtree there. -/
theorem RbValid.node (valid : RbValid t s) (member : p ∈ s.inorder) (d : Dir)
    (some : (t.nodes p).child d ≠ .null) :
    (t.nodes ((t.nodes p).child d)).getParent = p ∧ ((t.nodes p).getColor = .red →
      (t.nodes ((t.nodes p).child d)).getColor = .black) := by
  obtain ⟨path, c, a, b, rfl⟩ := exists_position_side d member
  obtain ⟨n, balanced⟩ := valid.balanced
  obtain ⟨shade, k, inner, -⟩ := TreePath.balanced_of_plug balanced
  have here := at_plug.mp valid.holds
  obtain ⟨-, stores, -, -⟩ := rep_side.mp here.focus
  rw [stores.towards] at some ⊢
  have child := at_child.mp here
  obtain ⟨-, up, tint⟩ := child.root_node (fun empty => some ((root_ptr_ne child.focus).mpr empty))
  refine ⟨up, fun red => ?_⟩
  rw [stores.color] at red
  subst red
  rw [tint, inner.of_side_red.2.1.color_eq]

/-- A valid tree has the properties that a reader of the memory finds. -/
theorem RbValid.sound (valid : RbValid t s) : TreeSound t s.inorder.toFinset := by
  have root : t.root = rootPtr s := valid.holds.around
  have distinct : s.inorder.Nodup := by simpa [TreePath.values] using valid.holds.distinct
  obtain ⟨n, balanced⟩ := valid.balanced
  refine ⟨⟨s.inorder, rfl, valid.sorted, ?_⟩, ?_, ?_, ?_, n, ?_⟩
  · intro turns enough
    rw [List.toFinset_card_of_nodup distinct] at enough
    rw [root]
    exact walk_rep turns enough valid.holds.focus
  · exact fun p member d some => (valid.node (List.mem_toFinset.mp member) d some).1
  · rw [root]
    intro some
    have nonempty : s ≠ .nil := fun empty => some ((root_ptr_ne valid.holds.focus).mpr empty)
    obtain ⟨-, up, tint⟩ := valid.holds.root_node nonempty
    exact ⟨up, tint.trans balanced.color_eq⟩
  · exact fun p member d red some => (valid.node (List.mem_toFinset.mp member) d some).2 red
  · intro k down
    rw [root] at down
    exact black_nodes_balanced valid.holds.focus balanced down

end Sound

/-- Validity depends on the nodes of the tree only. -/
theorem RbValid.congr (valid : RbValid t s) (root : t'.root = t.root)
    (same : ∀ p ∈ s.inorder, t'.nodes p = t.nodes p) : RbValid t' s := by
  refine ⟨⟨valid.holds.focus.congr same, ?_, valid.holds.distinct⟩, valid.balanced, ?_⟩
  · exact root.trans valid.holds.around
  · refine valid.sorted.imp_of_mem (fun left right less => ?_)
    rwa [same _ left, same _ right]

section Histories

variable {nodes : Finset NodePtr}

/-- A valid tree of the given nodes, whose number is that of its values. -/
theorem RbValid.card (valid : RbValid t s) : s.inorder.toFinset.card = s.inorder.length :=
  List.toFinset_card_of_nodup (by simpa [TreePath.values] using valid.holds.distinct)

/-- One insertion, on the set of nodes. -/
theorem insert_step (turns : Nat) (valid : RbValid t s) (some : n ≠ .null)
    (fresh : n ∉ s.inorder.toFinset) (enough : s.inorder.toFinset.card + 2 ≤ turns) :
    ∃ result t' s', rbInsert turns t n = .ok (result, t') ∧ RbValid t' s' ∧
      (∀ p, (t'.nodes p).key = (t.nodes p).key) ∧
      ((result = .null ∧ s'.inorder.toFinset = insert n s.inorder.toFinset) ∨
        (result ∈ s.inorder.toFinset ∧ (t.nodes result).key = (t.nodes n).key ∧
          s'.inorder.toFinset = s.inorder.toFinset)) := by
  rw [valid.card] at enough
  rw [List.mem_toFinset] at fresh
  obtain ⟨result, t', s', returns, inserted⟩ := rb_insert_spec turns enough valid some fresh
  refine ⟨result, t', s', returns, inserted.valid, inserted.keeps.keys, ?_⟩
  rcases inserted.cases with ⟨null, perm⟩ | ⟨member, same, rfl, -⟩
  · exact .inl ⟨null, by rw [List.toFinset_eq_of_perm _ _ perm, List.toFinset_cons]⟩
  · exact .inr ⟨List.mem_toFinset.mpr member, same, rfl⟩

/-- One removal, on the set of nodes. -/
theorem remove_step (turns : Nat) (valid : RbValid t s) (member : n ∈ s.inorder.toFinset)
    (enough : s.inorder.toFinset.card + 2 ≤ turns) :
    ∃ t' s', rbRemove turns t n = .ok t' ∧ RbValid t' s' ∧
      (∀ p, (t'.nodes p).key = (t.nodes p).key) ∧
      s'.inorder.toFinset = s.inorder.toFinset.erase n := by
  rw [valid.card] at enough
  rw [List.mem_toFinset] at member
  obtain ⟨t', s', returns, removed⟩ := rb_remove_spec turns enough valid member
  refine ⟨t', s', returns, removed.valid, removed.keeps.keys, ?_⟩
  have distinct : s.inorder.Nodup := by simpa [TreePath.values] using valid.holds.distinct
  ext q
  simp [removed.order, distinct.mem_erase_iff]

/-- Every history leads to a valid tree.

Proof: induction on the history; the calls return what the two step lemmas say. -/
theorem TreeReachable.valid (reach : TreeReachable t nodes) :
    ∃ s, RbValid t s ∧ s.inorder.toFinset = nodes := by
  induction reach with
  | @empty t zero =>
    exact ⟨.nil, ⟨⟨trivial, zero, by simp [inorder, TreePath.values]⟩, ⟨0, .nil⟩, by simp
      [inorder]⟩, rfl⟩
  | @owner t t' nodes _ root same ih =>
    obtain ⟨s, valid, rfl⟩ := ih
    simp only [List.mem_toFinset] at same
    exact ⟨s, valid.congr root same, rfl⟩
  | insert _ some fresh enough returns ih =>
    obtain ⟨s, valid, rfl⟩ := ih
    obtain ⟨result, t', s', actual, valid', -, nodes⟩ := insert_step _ valid some fresh enough
    rw [actual] at returns
    cases returns
    refine ⟨s', valid', ?_⟩
    rcases nodes with ⟨null, added⟩ | ⟨member, -, kept⟩
    · rw [if_pos null, added]
    · obtain ⟨path, c, l, r, shape⟩ := exists_position (List.mem_toFinset.mp member)
      have here := valid.holds
      rw [shape, at_plug] at here
      rw [if_neg here.focus.1, kept]
  | remove _ member enough returns ih =>
    obtain ⟨s, valid, rfl⟩ := ih
    obtain ⟨t', s', actual, valid', -, nodes⟩ := remove_step _ valid member enough
    rw [actual] at returns
    cases returns
    exact ⟨s', valid', nodes⟩

/-- After every history the tree is a red-black search tree of the nodes that the calls
left in it, and every further call returns: an insertion adds its node and returns
NULL, or returns the node of the tree that has its key; a removal takes out its
node. No call follows a NULL pointer. -/
theorem rb_histories_sound {t : RbTree} {nodes : Finset NodePtr} (reach : TreeReachable t nodes) :
    TreeSound t nodes ∧
    (∀ n turns, n ≠ .null → n ∉ nodes → nodes.card + 2 ≤ turns →
      ∃ result t', rbInsert turns t n = .ok (result, t') ∧
        (∀ p, (t'.nodes p).key = (t.nodes p).key) ∧
        ((result = .null ∧ TreeSound t' (insert n nodes)) ∨
          (result ∈ nodes ∧ (t.nodes result).key = (t.nodes n).key ∧ TreeSound t' nodes))) ∧
    ∀ n turns, n ∈ nodes → nodes.card + 2 ≤ turns →
      ∃ t', rbRemove turns t n = .ok t' ∧ (∀ p, (t'.nodes p).key = (t.nodes p).key) ∧
        TreeSound t' (nodes.erase n) := by
  obtain ⟨s, valid, rfl⟩ := reach.valid
  refine ⟨valid.sound, fun n turns some fresh enough => ?_, fun n turns member enough => ?_⟩
  · obtain ⟨result, t', s', returns, valid', keys, nodes⟩ := insert_step _ valid some fresh enough
    refine ⟨result, t', returns, keys, ?_⟩
    rcases nodes with ⟨null, added⟩ | ⟨member, same, kept⟩
    · exact .inl ⟨null, added ▸ valid'.sound⟩
    · exact .inr ⟨member, same, kept ▸ valid'.sound⟩
  · obtain ⟨t', s', returns, valid', keys, nodes⟩ := remove_step _ valid member enough
    exact ⟨t', returns, keys, nodes ▸ valid'.sound⟩

theorem reachable_add (reach : TreeReachable t nodes) (some : n ≠ .null)
    (fresh : ∀ p ∈ nodes, (t.nodes p).key ≠ (t.nodes n).key) :
    ∃ t', TreeReachable t' (insert n nodes) ∧ ∀ p, (t'.nodes p).key = (t.nodes p).key := by
  have outside : n ∉ nodes := fun member => fresh n member rfl
  obtain ⟨s, valid, rfl⟩ := reach.valid
  obtain ⟨result, t', s', returns, -, keys, cases⟩ :=
    insert_step _ valid some outside (Nat.le_refl _)
  have next := reach.insert some outside (Nat.le_refl _) returns
  rcases cases with ⟨null, -⟩ | ⟨member, same, -⟩
  · rw [if_pos null] at next
    exact ⟨t', next, keys⟩
  · exact absurd same (fresh result member)

/-- Three insertions in the order of the keys, which are the addresses here, so that the third
turns the tree; and the removal of the middle node. -/
theorem three_nodes_less_one : ∃ t t',
    TreeReachable t {⟨24#64, by decide⟩, ⟨16#64, by decide⟩, ⟨8#64, by decide⟩} ∧
      rbRemove 5 t ⟨16#64, by decide⟩ = .ok t' ∧
      TreeReachable t' {⟨24#64, by decide⟩, ⟨8#64, by decide⟩} ∧
      ∀ p, (t'.nodes p).key = p.addr.toNat := by
  have empty : TreeReachable ⟨fun p => ⟨p.addr.toNat, 0#64, .null, .null⟩, .null⟩ ∅ := .empty rfl
  obtain ⟨t₁, first, keys₁⟩ := reachable_add (n := ⟨8#64, by decide⟩) empty (by decide) (by decide)
  obtain ⟨t₂, second, keys₂⟩ := reachable_add (n := ⟨16#64, by decide⟩) first (by decide)
    (by simp only [keys₁]; decide)
  obtain ⟨t₃, third, keys₃⟩ := reachable_add (n := ⟨24#64, by decide⟩) second (by decide)
    (by simp only [keys₂, keys₁]; decide)
  obtain ⟨s, valid, nodes⟩ := third.valid
  obtain ⟨t', s', returns, -, keys, -⟩ := remove_step (n := ⟨16#64, by decide⟩) 5 valid
    (by rw [nodes]; decide) (by rw [nodes]; decide)
  refine ⟨t₃, t', third, returns, third.remove (by decide) (by decide) returns, fun p => ?_⟩
  rw [keys, keys₃, keys₂, keys₁]

/-- The tree of three nodes, and the one without its middle node. -/
theorem three_insertions_sound : ∃ t t',
    TreeSound t {⟨24#64, by decide⟩, ⟨16#64, by decide⟩, ⟨8#64, by decide⟩} ∧
      rbRemove 5 t ⟨16#64, by decide⟩ = .ok t' ∧
      TreeSound t' {⟨24#64, by decide⟩, ⟨8#64, by decide⟩} := by
  obtain ⟨t, t', reach, returns, reach', -⟩ := three_nodes_less_one
  exact ⟨t, t', (rb_histories_sound reach).1, returns, (rb_histories_sound reach').1⟩

end Histories

end Mftt
