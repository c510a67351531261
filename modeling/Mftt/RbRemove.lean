import Mftt.RbInsert

/-!
# Removal from a red-black tree

A node with at most one child is replaced by that child; a node with two children by
its successor, which is unlinked first. If the node that left its place was black,
`rb_remove_fixup` climbs from there as the repair of the abstract tree does. A black
node is missing below the sibling's parent, so the sibling exists and has a black
node of its own: no pointer that is followed is NULL.
-/

namespace Mftt

open RedBlack ColorTree Reached RbTree

variable {t t' : RbTree} {nodes : Set NodePtr} {s : ColorTree NodePtr} {path : TreePath NodePtr}

variable {d : Dir} {c : Color} {n : Nat}

section Turns

variable {a b : ColorTree NodePtr} {x y : NodePtr} {e : Color}

/-- What the root of the focus stores, in any direction. -/
theorem Reached.stores (here : Reached t nodes t' (side d c a x b) path) :
    x ≠ .null ∧ Stores (t'.nodes x) (topPtr path) c d (rootPtr a) (rootPtr b) ∧
      Rep t' x a ∧ Rep t' x b :=
  rep_side.mp here.position.focus

/-- A red sibling is turned above the parent. -/
theorem lift_red (here : Reached t nodes t' (side d c s x (side d .red a y b)) path) :
    ∃ t'', liftSibling d t' x = .ok (rootPtr a, t'') ∧
      Reached t nodes t'' (side d .red s x a) (⟨d, .black, y, b⟩ :: path) := by
  obtain ⟨validX, storesX, -, -⟩ := here.stores
  obtain ⟨validY, storesY, -, -⟩ := (otherChild.mp here).stores
  obtain ⟨first, blackSibling⟩ := (otherChild.mp here).color .black
  obtain ⟨second, redParent⟩ := (otherChild.mpr blackSibling).color .red
  obtain ⟨t'', third, turned⟩ := redParent.turn
  have result := child.mp turned
  obtain ⟨-, storesX', -, -⟩ := result.stores
  refine ⟨t'', ?_, result⟩
  rw [root_ptr_side] at storesX
  simp only [liftSibling, get_of_ne validX, bind_ok, storesX.away, get_of_ne validY,
    storesY.color, if_true, first, second, third, storesX'.away, pure_eq_ok]

/-- A black sibling stays where it is. -/
theorem lift_black (here : Reached t nodes t' (side d c s x (side d .black a y b)) path) :
    liftSibling d t' x = .ok (y, t') := by
  obtain ⟨validX, storesX, -, -⟩ := here.stores
  obtain ⟨validY, storesY, -, -⟩ := (otherChild.mp here).stores
  rw [root_ptr_side] at storesX
  simp only [liftSibling, get_of_ne validX, bind_ok, storesX.away, get_of_ne validY,
    storesY.color, reduceCtorEq, if_false, pure_eq_ok]

/-- A sibling whose far child is black: its near child, which is red, takes its place. -/
theorem straighten_near {l r : ColorTree NodePtr} {z : NodePtr}
    (here : Reached t nodes t' (side d c s x (side d .black (side d .red l z r) y b)) path)
    (far : b.color = .black) :
    ∃ t'', straighten d t' x y = .ok (z, t'') ∧
      Reached t nodes t'' (side d c s x (side d .black l z (side d .red r y b))) path := by
  obtain ⟨validX, -, -, -⟩ := here.stores
  have sibling := otherChild.mp here
  obtain ⟨validY, storesY, -, repB⟩ := sibling.stores
  obtain ⟨first, blackNear⟩ := (child.mp sibling).color .black
  obtain ⟨second, redSibling⟩ := (child.mpr blackNear).color .red
  rw [← side_opp, ← side_opp d .black] at redSibling
  obtain ⟨t'', third, turned⟩ := redSibling.turn
  rw [side_opp, side_opp] at turned
  have result := otherChild.mpr turned
  obtain ⟨-, storesX, -, -⟩ := result.stores
  refine ⟨t'', ?_, result⟩
  rw [root_ptr_side] at storesY storesX
  simp only [straighten, get_of_ne validY, bind_ok, storesY.away, is_black_root repB, far,
    decide_true, if_true, storesY.towards, first, second, third, get_of_ne validX,
    storesX.away, pure_eq_ok]

/-- A sibling whose far child is red stays where it is. -/
theorem straighten_far (here : Reached t nodes t' (side d c s x (side d e a y b)) path)
    (far : b.color = .red) : straighten d t' x y = .ok (y, t') := by
  obtain ⟨validY, storesY, -, repB⟩ := (otherChild.mp here).stores
  simp only [straighten, get_of_ne validY, bind_ok, storesY.away, is_black_root repB, far,
    reduceCtorEq, decide_false, if_false, pure_eq_ok]

/-- The sibling takes the place and the colour of the parent. -/
theorem take_over (here : Reached t nodes t' (side d c s x (side d e a y b)) path)
    (nonempty : b ≠ .nil) :
    ∃ t'', takeOver d t' x y = .ok t'' ∧
      Reached t nodes t'' (side d c (side d .black s x a) y b.blacken) path := by
  obtain ⟨validX, storesX, -, -⟩ := here.stores
  obtain ⟨validY, -, -, -⟩ := (otherChild.mp here).stores
  obtain ⟨first, painted⟩ := (otherChild.mp here).color c
  obtain ⟨second, blackParent⟩ := (otherChild.mpr painted).color .black
  have sibling := otherChild.mp blackParent
  obtain ⟨-, storesY, -, -⟩ := sibling.stores
  obtain ⟨third, blackFar⟩ := (otherChild.mp sibling).blacken nonempty
  obtain ⟨t'', fourth, turned⟩ := (otherChild.mpr (otherChild.mpr blackFar)).turn
  refine ⟨t'', ?_, turned⟩
  simp only [takeOver, get_of_ne validX, bind_ok, storesX.color, first, second,
    get_of_ne validY, storesY.away, third, fourth]

/-- The test on the two children of the sibling, in the order of the source. -/
theorem children_black {up : NodePtr} (stores : Stores (t.nodes y) up c d (rootPtr a) (rootPtr b))
    (repA : Rep t y a) (repB : Rep t y b) :
    ∃ left right, isBlack t (t.nodes y).L = .ok left ∧ isBlack t (t.nodes y).R = .ok right ∧
      ((left = true ∧ right = true) ↔ (a.color = .black ∧ b.color = .black)) := by
  cases d with
  | left =>
    have toLeft : (t.nodes y).L = rootPtr a := stores.towards
    have toRight : (t.nodes y).R = rootPtr b := stores.away
    exact ⟨_, _, toLeft ▸ is_black_root repA, toRight ▸ is_black_root repB, by simp⟩
  | right =>
    have toLeft : (t.nodes y).L = rootPtr b := stores.away
    have toRight : (t.nodes y).R = rootPtr a := stores.towards
    exact ⟨_, _, toLeft ▸ is_black_root repB, toRight ▸ is_black_root repA, by simp [and_comm]⟩

/-- The turn around a black sibling does what the abstract one does. If the repair goes
on, it does so from the parent; otherwise the root is the last node to be coloured. -/
theorem borrow_turn {e' : Color} (near : a.Balanced e n) (far : b.Balanced e' n)
    (here : Reached t nodes t' (side d c s x (side d .black a y b)) path) :
    ∃ cursor t'', borrowSibling d t' x y = .ok (cursor, t'') ∧
      Reached t nodes t'' (borrow d c s x (side d .black a y b)).1 path ∧
      cursor.stop = !(borrow d c s x (side d .black a y b)).2 ∧
      ((borrow d c s x (side d .black a y b)).2 = true →
        cursor.node = x ∧ cursor.parent = topPtr path) ∧
      ((borrow d c s x (side d .black a y b)).2 = false → cursor.node = t''.root) := by
  obtain ⟨validX, -, -, -⟩ := here.stores
  have sibling := otherChild.mp here
  obtain ⟨validY, storesY, repA, repB⟩ := sibling.stores
  obtain ⟨leftBlack, rightBlack, testLeft, testRight, both⟩ := children_black storesY repA repB
  rw [near.color_eq, far.color_eq] at both
  simp only [borrowSibling, get_of_ne validY, bind_ok, testLeft, testRight]
  rcases borrow_cases d c .black s x y near far with
    ⟨rfl, rfl, turn⟩ | ⟨rfl, l, z, r, rfl, turn⟩ | ⟨rfl, turn⟩
  · -- no red child
    obtain ⟨first, redSibling⟩ := sibling.color .red
    have result := otherChild.mpr redSibling
    obtain ⟨-, storesX, -, -⟩ := result.stores
    rw [turn, if_pos (both.mpr ⟨rfl, rfl⟩)]
    refine ⟨⟨false, x, topPtr path⟩, _, ?_, result, rfl, fun _ => ⟨rfl, rfl⟩, by simp⟩
    simp only [first, bind_ok, get_of_ne validX, storesX.parent, pure_eq_ok]
  · -- only the near child is red
    have notBoth : ¬(leftBlack = true ∧ rightBlack = true) := by
      rw [both]
      obtain ⟨shade, -, -⟩ := near.of_side_red
      simp [shade]
    obtain ⟨t₁, first, straight⟩ := straighten_near here far.color_eq
    obtain ⟨t₂, second, result⟩ := take_over straight (by cases d <;> simp [side])
    rw [blacken_side] at result
    rw [turn, if_neg notBoth]
    refine ⟨⟨true, t₂.root, x⟩, t₂, ?_, result, rfl, by simp, fun _ => rfl⟩
    simp only [first, bind_ok, second, pure_eq_ok]
  · -- the far child is red
    have notBoth : ¬(leftBlack = true ∧ rightBlack = true) := by
      rw [both]
      simp
    obtain ⟨t₂, second, result⟩ := take_over here (by rintro rfl; cases far)
    rw [turn, if_neg notBoth]
    refine ⟨⟨true, t₂.root, x⟩, t₂, ?_, result, rfl, by simp, fun _ => rfl⟩
    simp only [straighten_far here far.color_eq, bind_ok, second, pure_eq_ok]

end Turns

section Loop

variable {f : Frame NodePtr}

theorem RepPath.root_mem {hole : NodePtr} (rep : RepPath t hole (f :: path)) :
    t.root ∈ TreePath.values (f :: path) ∧ t.root ≠ .null := by
  induction path generalizing f hole with
  | nil =>
    obtain ⟨valid, -, -, root⟩ := rep
    rw [root]
    exact ⟨by simp [TreePath.values], valid⟩
  | cons g path ih =>
    obtain ⟨member, valid⟩ := ih rep.2.2.2
    exact ⟨by rw [TreePath.values]; simp [member], valid⟩

theorem At.root_ne (here : At t s (f :: path)) : rootPtr s ≠ t.root := by
  obtain ⟨member, valid⟩ := here.around.root_mem
  intro same
  have inside := root_ptr_mem here.focus (same ▸ valid)
  exact (List.nodup_append.mp here.distinct).2.2 _ inside _ member same

/-- A red node, or the root, ends the loop and becomes black. -/
theorem remove_fixup_ends (turns : Nat) (here : Reached t nodes t' s path)
    (ends : s.color = .red ∨ path = []) :
    ∃ t'', rbRemoveFixup (turns + 1) t' (rootPtr s) (topPtr path) = .ok t'' ∧
      Reached t nodes t'' (plug path s.blacken) [] := by
  have test := is_black_root here.position.focus
  have exits : removeFixupLoop (turns + 1) t' (rootPtr s) (topPtr path) = .ok (rootPtr s, t') := by
    simp only [removeFixupLoop, test, bind_ok]
    rw [if_neg]
    · rfl
    · rintro ⟨black, notRoot⟩
      rcases ends with red | rfl
      · rw [red] at black
        cases black
      · exact notRoot here.position.around.symm
  by_cases empty : s = .nil
  · subst empty
    refine ⟨t', ?_, whole.mpr here⟩
    simp only [rbRemoveFixup, exits]
    rfl
  · obtain ⟨valid, -, -⟩ := here.position.root_node empty
    obtain ⟨painted, dark⟩ := here.blacken empty
    refine ⟨_, ?_, whole.mpr dark⟩
    simp only [rbRemoveFixup, exits, bind_ok, valid, ne_eq, not_false_eq_true, if_true, painted]

/-- A turn at a black node below the root works on the side of the node. -/
theorem remove_loop_turn (turns : Nat) (here : At t s (f :: path)) (black : s.color = .black)
    (sibling : f.sibling ≠ .nil) :
    removeFixupLoop (turns + 1) t (rootPtr s) f.value =
      removeFixupSide f.dir t f.value >>= fun next =>
        if next.1.stop then .ok (next.1.node, next.2)
        else removeFixupLoop turns next.2 next.1.node next.1.parent := by
  obtain ⟨valid, stores, repSibling, -⟩ := here.around
  have chosen : (if (t.nodes f.value).L = rootPtr s then Dir.left else Dir.right) = f.dir := by
    cases towards : f.dir with
    | left =>
      rw [towards] at stores
      have left : (t.nodes f.value).L = rootPtr s := stores.towards
      rw [if_pos left]
    | right =>
      rw [towards] at stores
      have left : (t.nodes f.value).L = rootPtr f.sibling := stores.away
      rw [left, if_neg]
      by_cases empty : s = .nil
      · subst empty
        exact fun same => sibling ((root_ptr_ne repSibling).mp same)
      · exact here.root_ne_sibling empty
  simp only [removeFixupLoop, is_black_root here.focus, bind_ok, black, decide_true, ne_eq,
    here.root_ne, not_false_eq_true, and_self, if_true, get_of_ne valid, chosen, pure_eq_ok]

theorem remove_fixup_turn (turns : Nat) (here : At t s (f :: path)) (black : s.color = .black)
    (sibling : f.sibling ≠ .nil) {cursor : RemoveCursor} {t₁ : RbTree}
    (turn : removeFixupSide f.dir t f.value = .ok (cursor, t₁)) :
    rbRemoveFixup (turns + 1) t (rootPtr s) f.value =
      if cursor.stop then
        (if cursor.node ≠ .null then t₁.modify cursor.node (·.setColor .black) else .ok t₁)
      else rbRemoveFixup turns t₁ cursor.node cursor.parent := by
  simp only [rbRemoveFixup, remove_loop_turn turns here black sibling, turn, bind_ok]
  cases cursor.stop <;> rfl

/-- Leaving the loop by `break` colours the root. -/
theorem stopped_at_root (here : Reached t nodes t' s []) (nonempty : s ≠ .nil) :
    ∃ t'', (if t'.root ≠ .null then t'.modify t'.root (·.setColor .black) else .ok t') = .ok t'' ∧
      Reached t nodes t'' s.blacken [] := by
  have root : t'.root = rootPtr s := here.position.around
  obtain ⟨valid, -, -⟩ := here.position.root_node nonempty
  obtain ⟨painted, dark⟩ := here.blacken nonempty
  exact ⟨_, by rw [root, if_pos valid, painted], dark⟩

theorem plug_ne_nil (nonempty : s ≠ .nil) : plug path s ≠ .nil := by
  intro empty
  have perm := plug_perm path s
  rw [empty] at perm
  cases s with
  | nil => exact nonempty rfl
  | node c l p r => simp [inorder] at perm

theorem black_sibling_turn {x : NodePtr} {sib : ColorTree NodePtr} (turns : Nat)
    (here : Reached t nodes t' s (⟨d, c, x, sib⟩ :: path)) (focus : s.Balanced .black n)
    (sibling : sib.Balanced .black (n + 1)) :
    ∃ t'', Reached t nodes t'' (borrow d c s x sib).1 path ∧
      rbRemoveFixup (turns + 1) t' (rootPtr s) x =
        if (borrow d c s x sib).2 then rbRemoveFixup turns t'' x (topPtr path)
        else if t''.root ≠ .null then t''.modify t''.root (·.setColor .black) else .ok t'' := by
  have nonempty := sibling.ne_nil
  obtain ⟨a, y, b, shape⟩ := exists_side d nonempty
  rw [sibling.color_eq] at shape
  have whole := child.mpr here
  rw [shape] at whole sibling ⊢
  obtain ⟨-, m, e, e', -, near, far⟩ := sibling.of_side_black
  obtain ⟨cursor, t₁, turn, reached, stop, more, done⟩ := borrow_turn near far whole
  have side : removeFixupSide d t' x = .ok (cursor, t₁) := by
    simp only [removeFixupSide, lift_black whole, bind_ok, turn]
  refine ⟨t₁, reached, ?_⟩
  rw [remove_fixup_turn turns here.position focus.color_eq nonempty side, stop]
  cases going : (borrow d c s x (ColorTree.side d .black a y b)).2 with
  | true =>
    obtain ⟨node, parent⟩ := more going
    rw [node, parent]
    rfl
  | false =>
    rw [done going]
    rfl

/-- A turn at a black node with a red sibling. The node's parent becomes red, so that the
repair ends there at the latest. -/
theorem red_sibling_turn {x y : NodePtr} {a b : ColorTree NodePtr} (turns : Nat)
    (here : Reached t nodes t' s (⟨d, .black, x, side d .red a y b⟩ :: path))
    (focus : s.Balanced .black n) (near : a.Balanced .black (n + 1)) :
    ∃ t'', rbRemoveFixup (turns + 2) t' (rootPtr s) x = .ok t'' ∧
      Reached t nodes t'' (removeFix s (⟨d, .black, x, side d .red a y b⟩ :: path)) [] := by
  obtain ⟨t₁, lift, lifted⟩ := lift_red (child.mpr here)
  obtain ⟨l, z, r, shape⟩ := exists_side d near.ne_nil
  rw [near.color_eq] at shape
  rw [shape] at lifted near
  obtain ⟨-, m, e, e', -, inner, outer⟩ := near.of_side_black
  obtain ⟨cursor, t₂, turn, reached, stop, more, done⟩ := borrow_turn inner outer lifted
  have side : removeFixupSide d t' x = .ok (cursor, t₂) := by
    rw [shape, root_ptr_side] at lift
    simp only [removeFixupSide, lift, bind_ok, turn]
  rw [remove_fixup_turn (turns + 1) here.position focus.color_eq
    (by cases d <;> simp [ColorTree.side])
    side, stop, remove_fix_red_sibling path focus.color_eq, shape]
  rcases borrow_balanced d .red x focus near with
    ⟨s', low, result⟩ | ⟨left, w, right, -, -, result⟩
  · rw [result] at reached more ⊢
    obtain ⟨node, parent⟩ := more rfl
    obtain ⟨t₃, ends, final⟩ := remove_fixup_ends turns reached (.inl (color_side ..))
    rw [root_ptr_side] at ends
    refine ⟨t₃, ?_, final⟩
    rw [node, parent]
    exact ends
  · rw [result] at reached done ⊢
    rw [done rfl]
    exact stopped_at_root (whole.mpr (child.mpr reached))
      (plug_ne_nil (by cases d <;> simp [ColorTree.side]))

/-- `rb_remove_fixup` does what the repair of the abstract tree does, in at most one
turn for each node of the path and two more.

Proof: induction on the path. A red sibling costs one more turn, which the red parent
then ends. -/
theorem remove_fixup (turns : Nat) (enough : path.length + 2 ≤ turns)
    (here : Reached t nodes t' s path) (focus : s.Balanced c n)
    (around : TreePath.Balanced path .black (n + 1)) :
    ∃ t'', rbRemoveFixup turns t' (rootPtr s) (topPtr path) = .ok t'' ∧
      Reached t nodes t'' (removeFix s path) [] := by
  induction path generalizing s t' c n turns with
  | nil =>
    obtain ⟨turns, rfl⟩ : ∃ k, turns = k + 1 := ⟨turns - 1, by omega⟩
    exact remove_fixup_ends turns here (.inr rfl)
  | cons f path ih =>
    obtain ⟨turns, rfl⟩ : ∃ k, turns = k + 2 := ⟨turns - 2, by omega⟩
    cases c with
    | red =>
      rw [remove_fix_red _ focus.color_eq]
      exact remove_fixup_ends (turns + 1) here (.inl focus.color_eq)
    | black =>
      have dark := focus.color_eq
      cases around with
      | @red _ d x sib _ sibling outer =>
        obtain ⟨t₁, reached, turn⟩ := black_sibling_turn (turns + 1) here focus sibling
        rw [remove_fix_black path dark sibling.color_eq sibling.ne_nil]
        simp only [topPtr, turn]
        rcases borrow_balanced d .red x focus sibling with
          ⟨s', low, result⟩ | ⟨l, z, r, left, right, result⟩
        · rw [result] at reached ⊢
          obtain ⟨t₂, ends, final⟩ := remove_fixup_ends turns reached (.inl (color_side ..))
          rw [root_ptr_side] at ends
          refine ⟨t₂, ends, ?_⟩
          rwa [remove_fix_red path (color_side ..)]
        · rw [result] at reached ⊢
          exact stopped_at_root (whole.mpr reached)
            (plug_ne_nil (by cases d <;> simp [side]))
      | @black _ d x sib _ c' _ sibling outer =>
        cases c' with
        | black =>
          obtain ⟨t₁, reached, turn⟩ := black_sibling_turn (turns + 1) here focus sibling
          rw [remove_fix_black path dark sibling.color_eq sibling.ne_nil]
          simp only [topPtr, turn]
          rcases borrow_balanced d .black x focus sibling with
            ⟨s', low, result⟩ | ⟨l, z, r, left, right, result⟩
          · rw [result] at reached ⊢
            obtain ⟨t₂, loop, final⟩ := ih (turns + 1) (by simp at enough; omega) reached
              (.side_black focus low) outer
            rw [root_ptr_side] at loop
            exact ⟨t₂, loop, final⟩
          · rw [result] at reached ⊢
            exact stopped_at_root (whole.mpr reached)
              (plug_ne_nil (by cases d <;> simp [side]))
        | red =>
          -- the sibling goes up; its near child becomes the new sibling of the node
          have nonempty : sib ≠ .nil := by
            rintro rfl
            cases sibling
          obtain ⟨a, y, b, shape⟩ := exists_side d nonempty
          rw [sibling.color_eq] at shape
          subst shape
          obtain ⟨-, near, -⟩ := sibling.of_side_red
          exact red_sibling_turn turns here focus near

end Loop

end Mftt
