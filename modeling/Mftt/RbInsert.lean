import Mftt.RbHeap

/-!
# Insertion into a red-black tree

The loop of `rb_insert_fixup` follows the repair of the abstract tree: each turn
either recolours and climbs two levels, or rotates and stops. It follows no NULL
pointer because a red node of a balanced tree has a parent.
-/

namespace Mftt

open RedBlack ColorTree TreePath RbTree

variable {t : RbTree} {s : ColorTree NodePtr} {path : TreePath NodePtr}

/-- What the root of the focus stores. -/
theorem At.root_node (here : At t s path) (nonempty : s ≠ .nil) :
    rootPtr s ≠ .null ∧ (t.nodes (rootPtr s)).getParent = topPtr path ∧
      (t.nodes (rootPtr s)).getColor = s.color := by
  cases s with
  | nil => exact absurd rfl nonempty
  | node c l p r =>
    obtain ⟨valid, stores, -, -⟩ := here.focus
    exact ⟨valid, stores.parent, stores.color⟩

variable {f : Frame NodePtr} {parent : NodePtr}

/-- The focus and the subtree beside it have different roots, unless both are empty. -/
theorem At.root_ne_sibling (here : At t s (f :: path)) (nonempty : s ≠ .nil) :
    rootPtr f.sibling ≠ rootPtr s := by
  intro same
  obtain ⟨valid, -, -⟩ := here.root_node nonempty
  have left := root_ptr_mem here.focus valid
  have right := root_ptr_mem here.around.2.2.1 (same ▸ valid)
  refine (List.nodup_append.mp here.distinct).2.2 _ left (rootPtr f.sibling) ?_ same.symm
  simp [values, right]

/-- The two colour tests on the root of a tree in memory. -/
theorem is_red_root (rep : Rep t parent s) :
    isRed t (rootPtr s) = .ok (decide (s.color = .red)) := by
  cases s with
  | nil => rfl
  | node c l p r =>
    obtain ⟨valid, stores, -, -⟩ := rep
    simp only [isRed, rootPtr, valid, get_of_ne valid, bind_ok, stores.color]
    rfl

theorem is_black_root (rep : Rep t parent s) :
    isBlack t (rootPtr s) = .ok (decide (s.color = .black)) := by
  cases s with
  | nil => rfl
  | node c l p r =>
    obtain ⟨valid, stores, -, -⟩ := rep
    simp only [isBlack, rootPtr, valid, get_of_ne valid, bind_ok, stores.color]
    rfl

/-- Nodes of a tree from one of its positions. -/
def nodesAt (s : ColorTree NodePtr) (path : TreePath NodePtr) : Set NodePtr :=
  {p | p ∈ s.inorder ∨ p ∈ values path}

theorem nodes_at_side (d : Dir) (c : Color) (a b : ColorTree NodePtr) (x : NodePtr)
    (path : TreePath NodePtr) :
    nodesAt (side d c a x b) path = nodesAt a (⟨d, c, x, b⟩ :: path) := by
  ext p
  have members := (inorder_side_perm d c a b x).mem_iff (a := p)
  simp only [nodesAt, Set.mem_ofPred_eq, members, values, List.mem_append]
  tauto

theorem nodes_at_congr {s' : ColorTree NodePtr} (path : TreePath NodePtr)
    (same : s.inorder = s'.inorder) : nodesAt s path = nodesAt s' path := by
  simp only [nodesAt, same]

/-- From `t` the memory `t'` has been reached by changing nodes in `nodes` only, which
are those of the tree, and it holds the position. -/
structure Reached (t : RbTree) (nodes : Set NodePtr) (t' : RbTree) (s : ColorTree NodePtr)
    (path : TreePath NodePtr) : Prop where
  position : At t' s path
  keeps : Keeps t t' nodes
  all : nodesAt s path = nodes

variable {t' : RbTree} {nodes : Set NodePtr}

namespace Reached

variable {a b l m r : ColorTree NodePtr} {x y : NodePtr} {d : Dir} {c e : Color}

theorem start (here : At t s path) : Reached t (nodesAt s path) t s path :=
  ⟨here, Keeps.refl t _, rfl⟩

/-- Moving the focus. -/
theorem child : Reached t nodes t' (side d c a x b) path ↔
    Reached t nodes t' a (⟨d, c, x, b⟩ :: path) := by
  constructor
  · rintro ⟨position, keeps, all⟩
    exact ⟨at_child.mp position, keeps, (nodes_at_side ..).symm.trans all⟩
  · rintro ⟨position, keeps, all⟩
    exact ⟨at_child.mpr position, keeps, (nodes_at_side ..).trans all⟩

/-- Moving the focus to the other child. -/
theorem otherChild : Reached t nodes t' (side d c a x b) path ↔
    Reached t nodes t' b (⟨d.opp, c, x, a⟩ :: path) := by
  rw [← child, side_opp]

/-- The whole tree, from any of its positions. -/
theorem whole : Reached t nodes t' (plug path s) [] ↔ Reached t nodes t' s path := by
  induction path generalizing s with
  | nil => exact Iff.rfl
  | cons f path ih => exact ih.trans child

/-- Colouring the root of the focus. -/
theorem color (e : Color) (here : Reached t nodes t' (side d c a x b) path) :
    t'.modify x (·.setColor e) = .ok (t'.update x (·.setColor e)) ∧
      Reached t nodes (t'.update x (·.setColor e)) (side d e a x b) path := by
  obtain ⟨position, keeps, all⟩ := here
  obtain ⟨returns, position'⟩ := set_color_at e position
  have member : x ∈ nodes := by
    rw [← all, nodes_at_side]
    exact .inr (by simp [values])
  refine ⟨returns, position', ?_, ?_⟩
  · exact keeps.trans ((Keeps.set_color t' x e).mono (Set.singleton_subset_iff.mpr member))
  · rw [← all]
    exact nodes_at_congr path (inorder_side_congr d e c x rfl rfl)

/-- Colouring the root of a focus of any shape black. -/
theorem blacken (here : Reached t nodes t' s path) (nonempty : s ≠ .nil) :
    t'.modify (rootPtr s) (·.setColor .black) = .ok (t'.update (rootPtr s) (·.setColor .black)) ∧
      Reached t nodes (t'.update (rootPtr s) (·.setColor .black)) s.blacken path := by
  obtain ⟨a, x, b, shape⟩ := exists_side .left nonempty
  rw [shape] at here ⊢
  exact here.color .black

/-- Rotating at the focus. -/
theorem turn (here : Reached t nodes t' (side d c l x (side d e m y r)) path) :
    ∃ t'', rotate d t' x = .ok t'' ∧
      Reached t nodes t'' (side d e (side d c l x m) y r) path := by
  obtain ⟨position, keeps, all⟩ := here
  obtain ⟨t'', returns, position', keeps'⟩ := rotate_at position
  refine ⟨t'', returns, position', keeps.trans (keeps'.mono ?_), ?_⟩
  · rw [← all, nodes_at_side]
    intro p member
    have members := (inorder_side_perm d e m r y).mem_iff (a := p)
    simp only [nodesAt, Set.mem_ofPred_eq, values, List.mem_append, List.mem_cons,
      members] at member ⊢
    tauto
  · rw [← all]
    exact nodes_at_congr path (inorder_rotate d c e c e l m r x y)

end Reached

section Fixup

variable {g : Frame NodePtr}

/-- A turn of `rb_insert_fixup` that finds a red uncle. -/
theorem fixup_recolor (here : Reached t nodes t' s (f :: g :: path))
    (uncle : g.sibling.color = .red) :
    ∃ t'', insertFixupSide g.dir t' (rootPtr s) f.value g.value = .ok (g.value, t'') ∧
      Reached t nodes t'' (side g.dir .red (side f.dir .black s f.value f.sibling) g.value
        g.sibling.blacken) path := by
  have nonempty : g.sibling ≠ .nil := by
    intro empty
    rw [empty] at uncle
    cases uncle
  obtain ⟨validG, storesG, repU, -⟩ := here.position.around.2.2.2
  have atUncle := Reached.otherChild.mp (Reached.child.mpr (Reached.child.mpr here))
  obtain ⟨first, blackUncle⟩ := atUncle.blacken nonempty
  obtain ⟨second, blackParent⟩ := (Reached.child.mp (Reached.otherChild.mpr blackUncle)).color
    .black
  obtain ⟨third, redGrand⟩ := (Reached.child.mpr blackParent).color .red
  refine ⟨_, ?_, redGrand⟩
  simp only [insertFixupSide, get_of_ne validG, storesG.away, bind_ok, is_red_root repU,
    uncle, pure_eq_ok, decide_true, if_true, first, second, third]

/-- A turn that finds a black uncle, or none. The node of the next turn is the lower
of the two nodes turned, and its parent is black. -/
theorem fixup_rotate (here : Reached t nodes t' s (f :: g :: path)) (nonempty : s ≠ .nil)
    (red : f.color = .red) (uncle : g.sibling.color ≠ .red) :
    ∃ t'' near w far, insertFixupSide g.dir t' (rootPtr s) f.value g.value =
        .ok (rootPtr near, t'') ∧ near ≠ .nil ∧
      insertRotate s f g = side g.dir .black near w far ∧
      Reached t nodes t'' (insertRotate s f g) path := by
  obtain ⟨validF, storesF, -, validG, storesG, repU, -⟩ := here.position.around
  have different := here.position.root_ne_sibling nonempty
  rcases Dir.eq_or_opp g.dir f.dir with outer | inner
  · -- the focus lies in the direction of its parent
    rw [insert_rotate_outer s f g outer]
    obtain ⟨first, blackParent⟩ := (Reached.child.mpr here).color .black
    obtain ⟨second, redGrand⟩ := (Reached.child.mpr blackParent).color .red
    rw [outer, ← side_opp, ← side_opp g.dir .black] at redGrand
    obtain ⟨t'', third, turned⟩ := redGrand.turn
    rw [side_opp, side_opp] at turned
    refine ⟨t'', s, f.value, _, ?_, nonempty, rfl, turned⟩
    rw [outer] at storesF
    simp only [insertFixupSide, get_of_ne validG, storesG.away, bind_ok, is_red_root repU,
      uncle, decide_false, Bool.false_eq_true, get_of_ne validF, storesF.away, different,
      if_false, pure_eq_ok, first, second, third]
  · -- the focus first takes the place of its parent
    obtain ⟨a, z, b, shape⟩ := exists_side g.dir nonempty
    have atParent := Reached.child.mpr here
    rw [inner, side_opp, shape] at atParent
    obtain ⟨t₁, first, lifted⟩ := atParent.turn
    obtain ⟨second, blackFocus⟩ := lifted.color .black
    obtain ⟨third, redGrand⟩ := (Reached.child.mpr blackFocus).color .red
    rw [← side_opp, ← side_opp g.dir .black] at redGrand
    obtain ⟨t'', fourth, turned⟩ := redGrand.turn
    rw [side_opp, side_opp, red] at turned
    have result := insert_rotate_inner g.dir s.color a b z f g (by simp [inner]) rfl
    rw [← shape] at result
    rw [result]
    refine ⟨t'', _, z, _, ?_, ?_, rfl, turned⟩
    · rw [root_ptr_side]
      rw [inner] at storesF
      have rooted : rootPtr s = z := by rw [shape, root_ptr_side]
      rw [rooted] at storesF ⊢
      simp only [insertFixupSide, get_of_ne validG, storesG.away, bind_ok,
        is_red_root repU, uncle, decide_false, Bool.false_eq_true, get_of_ne validF,
        storesF.towards, if_true, if_false, pure_eq_ok, first, second, third, fourth]
    · cases g.dir <;> simp [side]

theorem loop_stops {d : Dir} {near far : ColorTree NodePtr} {w : NodePtr} (turns : Nat)
    (here : At t (side d .black near w far) path) (nonempty : near ≠ .nil) :
    insertFixupLoop (turns + 1) t (rootPtr near) = .ok t := by
  obtain ⟨valid, parent, -⟩ := (at_child.mp here).root_node nonempty
  obtain ⟨validW, storesW, -⟩ := (at_child.mp here).around
  simp only [topPtr] at parent validW
  simp [insertFixupLoop, valid, parent, validW, storesW.color]

theorem loop_at_root (turns : Nat) (here : At t s []) (nonempty : s ≠ .nil) :
    insertFixupLoop (turns + 1) t (rootPtr s) = .ok t := by
  obtain ⟨valid, parent, -⟩ := here.root_node nonempty
  simp only [topPtr] at parent
  simp [insertFixupLoop, valid, parent]

/-- A turn below a red parent works on the side its parent lies on. -/
theorem loop_turn (turns : Nat) (here : At t s (f :: g :: path)) (nonempty : s ≠ .nil)
    (red : f.color = .red) :
    insertFixupLoop (turns + 1) t (rootPtr s) =
      insertFixupSide g.dir t (rootPtr s) f.value g.value >>= fun next =>
        insertFixupLoop turns next.2 next.1 := by
  obtain ⟨valid, parent, -⟩ := here.root_node nonempty
  obtain ⟨validF, storesF, -, validG, storesG, -⟩ := here.around
  have different := (at_child.mpr here).root_ne_sibling (by cases f.dir <;> simp [side])
  rw [root_ptr_side] at different
  have up := storesF.parent
  simp only [topPtr] at parent up
  simp only [insertFixupLoop, get_of_ne valid, bind_ok, parent, validF, if_false,
    get_of_ne validF, storesF.color, red, ne_eq, not_true_eq_false, up,
    get_of_ne validG]
  cases towards : g.dir with
  | left =>
    rw [towards] at storesG
    have left : (t.nodes g.value).L = f.value := storesG.towards
    simp only [left, if_true]
  | right =>
    rw [towards] at storesG
    have right : (t.nodes g.value).R = f.value := storesG.towards
    have left : (t.nodes g.value).L = rootPtr g.sibling := storesG.away
    simp only [left, right, different.symm, if_true, if_false]

/-- The loop of `rb_insert_fixup` does what the repair of the abstract tree does, in at
most one turn for each node of the path and two more.

Proof: induction on the repair. A parent that is red has a parent, because the root
of a balanced tree is black. -/
theorem insert_fixup_loop {n : Nat} (turns : Nat) (enough : path.length + 2 ≤ turns)
    (here : Reached t nodes t' s path) (focus : s.Balanced .red n)
    (around : TreePath.Balanced path .black n) :
    ∃ t'', insertFixupLoop turns t' (rootPtr s) = .ok t'' ∧
      Reached t nodes t'' (insertFix s path) [] := by
  induction s, path using insertFix.induct generalizing t' n turns with
  | case1 s =>
    obtain ⟨turns, rfl⟩ : ∃ k, turns = k + 1 := ⟨turns - 1, by omega⟩
    exact ⟨t', loop_at_root turns here.position (by rintro rfl; cases focus), here⟩
  | case2 s f =>
    obtain ⟨turns, rfl⟩ : ∃ k, turns = k + 1 := ⟨turns - 1, by omega⟩
    cases around with
    | red _ outer => cases outer
    | black sibling outer =>
      have up := Reached.child.mpr here
      exact ⟨t', loop_stops turns up.position (by rintro rfl; cases focus), up⟩
  | case3 s f g path isBlack =>
    obtain ⟨turns, rfl⟩ : ∃ k, turns = k + 1 := ⟨turns - 1, by omega⟩
    rw [insertFix, if_pos isBlack]
    have up := Reached.child.mpr here
    rw [isBlack] at up
    exact ⟨t', loop_stops turns up.position (by rintro rfl; cases focus), Reached.whole.mpr here⟩
  | case4 s f g path notBlack uncle ih =>
    obtain ⟨turns, rfl⟩ : ∃ k, turns = k + 1 := ⟨turns - 1, by omega⟩
    have nonempty : s ≠ .nil := by rintro rfl; cases focus
    cases around with
    | black _ _ => exact absurd rfl notBlack
    | red sibling outer =>
      cases outer with
      | black above rest =>
        obtain ⟨t₁, returns, reached⟩ := fixup_recolor here uncle
        rw [above.color_eq] at uncle
        subst uncle
        obtain ⟨t₂, loop, result⟩ := ih turns (by simp at enough ⊢; omega) reached
          (.side_red (.side_black focus sibling) above.blacken_red) rest
        refine ⟨t₂, ?_, ?_⟩
        · rw [loop_turn turns here.position nonempty rfl, returns]
          rwa [root_ptr_side] at loop
        · rwa [insertFix, if_pos above.color_eq]
  | case5 s f g path notBlack uncle =>
    obtain ⟨turns, rfl⟩ : ∃ k, turns = k + 2 := ⟨turns - 2, by omega⟩
    have nonempty : s ≠ .nil := by rintro rfl; cases focus
    have red : f.color = .red := by
      cases shade : f.color
      · rfl
      · exact absurd shade notBlack
    obtain ⟨t₁, near, w, far, returns, some, shape, reached⟩ :=
      fixup_rotate here nonempty red uncle
    refine ⟨t₁, ?_, ?_⟩
    · rw [loop_turn (turns + 1) here.position nonempty red, returns]
      rw [shape] at reached
      exact loop_stops turns reached.position some
    · rw [insertFix, if_neg notBlack, if_neg uncle]
      exact Reached.whole.mpr reached

end Fixup

/-- The memory holds a search tree on the keys of its nodes, balanced and with a black
root. -/
structure RbValid (t : RbTree) (s : ColorTree NodePtr) : Prop where
  holds : At t s []
  balanced : ∃ n, s.Balanced .black n
  sorted : s.inorder.Pairwise (fun p q => (t.nodes p).key < (t.nodes q).key)

variable {n : NodePtr}

/-- A key belongs at a position when everything to the left of it has a smaller key
and everything to the right a larger one. -/
def Belongs (t : RbTree) (key : Nat) (path : TreePath NodePtr) : Prop :=
  (∀ p ∈ before path, (t.nodes p).key < key) ∧ ∀ p ∈ after path, key <
    (t.nodes p).key

/-- The search of `rb_insert` ends at a node with the key, or at the empty position
where the key belongs.

Proof: induction on the subtree still to be searched. -/
theorem insert_place (turns : Nat) (enough : s.inorder.length < turns) (valid : n ≠ .null)
    (here : At t s path) (belongs : Belongs t (t.nodes n).key path)
    (sorted : s.inorder.Pairwise (fun p q => (t.nodes p).key < (t.nodes q).key)) :
    (∃ x ∈ s.inorder, (t.nodes x).key = (t.nodes n).key ∧
      insertPlace turns t n (topPtr path) (rootPtr s) = .ok (.inl x)) ∨
    ∃ path', At t .nil path' ∧ plug path' .nil = plug path s ∧
      Belongs t (t.nodes n).key path' ∧
      insertPlace turns t n (topPtr path) (rootPtr s) = .ok (.inr (topPtr path')) := by
  induction s generalizing path turns with
  | nil =>
    obtain ⟨turns, rfl⟩ : ∃ k, turns = k + 1 := ⟨turns - 1, by omega⟩
    exact .inr ⟨path, here, rfl, belongs, by simp [insertPlace, rootPtr]⟩
  | node c l x r left right =>
    obtain ⟨turns, rfl⟩ : ∃ k, turns = k + 1 := ⟨turns - 1, by omega⟩
    obtain ⟨validX, stores, -, -⟩ := here.focus
    have goLeft : (t.nodes x).L = rootPtr l := stores.towards
    have goRight : (t.nodes x).R = rootPtr r := stores.away
    simp only [inorder, List.length_append, List.length_cons] at enough
    simp only [inorder, List.pairwise_append, List.pairwise_cons, List.mem_cons] at sorted
    obtain ⟨sortedLeft, ⟨above, sortedRight⟩, below⟩ := sorted
    have step : insertPlace (turns + 1) t n (topPtr path) (rootPtr (.node c l x r)) =
        if (t.nodes n).key = (t.nodes x).key then .ok (.inl x)
        else if (t.nodes n).key < (t.nodes x).key then insertPlace turns t n x (rootPtr l)
        else insertPlace turns t n x (rootPtr r) := by
      simp [insertPlace, rootPtr, validX, valid, goLeft, goRight]
    rw [step]
    rcases Nat.lt_trichotomy (t.nodes n).key (t.nodes x).key with less | equal | greater
    · have into := at_child.mp (show At t (side .left c l x r) path from here)
      have belongs' : Belongs t (t.nodes n).key (⟨.left, c, x, r⟩ :: path) := by
        refine ⟨belongs.1, fun p member => ?_⟩
        simp only [after, List.cons_append, List.mem_cons, List.mem_append] at member
        rcases member with rfl | inRight | outside
        · exact less
        · exact less.trans (above p inRight)
        · exact belongs.2 p outside
      rw [if_neg less.ne, if_pos less]
      rcases left turns (by omega) into belongs' sortedLeft with
        ⟨y, member, same, found⟩ | ⟨path', empty, whole, fits, found⟩
      · exact .inl ⟨y, by simp [inorder, member], same, found⟩
      · exact .inr ⟨path', empty, whole, fits, found⟩
    · rw [if_pos equal]
      exact .inl ⟨x, by simp [inorder], equal.symm, rfl⟩
    · have into := at_child.mp (show At t (side .right c r x l) path from here)
      have belongs' : Belongs t (t.nodes n).key (⟨.right, c, x, l⟩ :: path) := by
        refine ⟨fun p member => ?_, belongs.2⟩
        simp only [before, List.mem_append, List.mem_cons, List.not_mem_nil,
          or_false] at member
        rcases member with outside | inLeft | rfl
        · exact belongs.1 p outside
        · exact (below p inLeft x (.inl rfl)).trans greater
        · exact greater
      rw [if_neg greater.ne', if_neg greater.not_gt]
      rcases right turns (by omega) into belongs' sortedRight with
        ⟨y, member, same, found⟩ | ⟨path', empty, whole, fits, found⟩
      · exact .inl ⟨y, by simp [inorder, member], same, found⟩
      · exact .inr ⟨path', empty, whole, fits, found⟩

/-- Linking a new red leaf at an empty position. -/
theorem attach_leaf (here : At t .nil (f :: path)) (valid : n ≠ .null)
    (fresh : n ∉ values (f :: path)) (bare : ∀ d, (t.nodes n).child d = .null) :
    At (((t.update n (·.setParent f.value)).update f.value (·.setChild f.dir n)).update n
      (·.setColor .red)) (.node .red .nil n .nil) (f :: path) := by
  obtain ⟨-, ⟨validF, storesF, sibling, outer⟩, distinct⟩ := here
  have other : n ≠ f.value := fun same => fresh (by simp [values, same])
  simp only [values, List.cons_append, List.mem_cons, List.mem_append, not_or] at fresh
  simp only [inorder, List.nil_append, values, List.cons_append, List.nodup_cons,
    List.mem_append, not_or] at distinct
  obtain ⟨⟨notSibling, notOuter⟩, rest⟩ := distinct
  refine ⟨⟨valid, ?_, trivial, trivial⟩, ⟨validF, ?_, ?_, ?_⟩, ?_⟩
  · rw [nodes_update_self, nodes_update_ne other]
    constructor <;> simp [topPtr, rootPtr, bare]
  · rw [nodes_update_ne other.symm, nodes_update_self, nodes_update_ne other.symm]
    constructor <;> simp [storesF.parent, storesF.color, storesF.away, rootPtr]
  · exact ((sibling.update fresh.2.1).update notSibling).update fresh.2.1
  · exact ((outer.update fresh.2.2).update notOuter).update fresh.2.2
  · simp only [inorder, List.nil_append, values, List.cons_append, List.nodup_cons,
      List.mem_cons, List.mem_append, not_or]
    exact ⟨fresh, ⟨notSibling, notOuter⟩, rest⟩

/-- The new node after the first stores of `rb_insert`. -/
def cleared (t : RbTree) (n : NodePtr) : RbTree :=
  ((t.update n (·.setChild .right .null)).update n (·.setChild .left .null)).update n
    (·.setParent .null)

theorem cleared_keeps (t : RbTree) (n : NodePtr) : Keeps t (cleared t n) {n} :=
  ((Keeps.set_child t n .right .null).trans (Keeps.set_child _ n .left .null)).trans
    (Keeps.set_parent _ n .null)

theorem cleared_at (here : At t s path) (fresh : n ∉ nodesAt s path) : At (cleared t n) s path := by
  have notFocus : n ∉ s.inorder := fun member => fresh (.inl member)
  have notPath : n ∉ values path := fun member => fresh (.inr member)
  exact ⟨((here.focus.update notFocus).update notFocus).update notFocus,
    ((here.around.update notPath).update notPath).update notPath, here.distinct⟩

theorem cleared_bare (t : RbTree) (n : NodePtr) (d : Dir) :
    ((cleared t n).nodes n).child d = .null := by
  cases d <;> simp [cleared]

/-- Linking a new node at the position where its key belongs makes a valid tree of the
old nodes and the new one. -/
theorem link_leaf (turns m : Nat) (enough : (f :: path).length + 2 ≤ turns)
    (here : At t .nil (f :: path)) (balanced : (plug (f :: path) .nil).Balanced .black m)
    (sorted : (plug (f :: path) .nil).inorder.Pairwise
      (fun p q => (t.nodes p).key < (t.nodes q).key))
    (belongs : Belongs t (t.nodes n).key (f :: path)) (valid : n ≠ .null)
    (fresh : n ∉ values (f :: path)) (bare : ∀ d, (t.nodes n).child d = .null) :
    ∃ t' s', linkLeaf turns t n f.value = .ok t' ∧ RbValid t' s' ∧
      s'.inorder.Perm (n :: (plug (f :: path) .nil).inorder) ∧
      Keeps t t' ({n} ∪ nodesAt .nil (f :: path)) := by
  have validF := here.around.1
  -- the key decides for the direction of the empty position
  have chosen : hang (t.update n (·.setParent f.value)) n f.value =
      .ok ((t.update n (·.setParent f.value)).update f.value (·.setChild f.dir n)) := by
    simp only [hang, get_of_ne validF, get_of_ne valid, bind_ok,
      (Keeps.set_parent t n f.value).keys, modify_of_ne validF]
    obtain ⟨d, c, y, sibling⟩ := f
    cases d with
    | left =>
      have less := belongs.2 y (by simp [after])
      rw [if_neg less.not_gt]
    | right =>
      have less := belongs.1 y (by simp [before])
      rw [if_pos less]
  have linked := attach_leaf here valid fresh bare
  have keeps : Keeps t (((t.update n (·.setParent f.value)).update f.value
      (·.setChild f.dir n)).update n (·.setColor .red)) ({n} ∪ nodesAt .nil (f :: path)) := by
    have new : {n} ⊆ ({n} ∪ nodesAt .nil (f :: path) : Set NodePtr) := Set.subset_union_left
    have old : {f.value} ⊆ ({n} ∪ nodesAt .nil (f :: path) : Set NodePtr) :=
      Set.singleton_subset_iff.mpr (.inr (.inr (by simp [values])))
    exact (((Keeps.set_parent t n f.value).mono new).trans
      ((Keeps.set_child _ f.value f.dir n).mono old)).trans ((Keeps.set_color _ n .red).mono new)
  have around : TreePath.Balanced (f :: path) .black 0 := by
    obtain ⟨c, k, inner, outer⟩ := balanced_of_plug balanced
    cases inner
    exact outer
  -- the repair
  obtain ⟨t₄, loop, reached⟩ := insert_fixup_loop turns enough (Reached.start linked)
    (.red .nil .nil) around
  have order : (insertFix (.node .red .nil n .nil) (f :: path)).inorder =
      before (f :: path) ++ n :: after (f :: path) := by
    rw [inorder_insert_fix, inorder_plug]
    simp [inorder]
  have nonempty : insertFix (.node .red .nil n .nil) (f :: path) ≠ .nil := by
    intro empty
    rw [empty] at order
    simp [inorder] at order
  have root : t₄.root = rootPtr (insertFix (.node .red .nil n .nil) (f :: path)) :=
    reached.position.around
  obtain ⟨painted, final⟩ := reached.blacken nonempty
  have all : Keeps t (t₄.update (rootPtr (insertFix (.node .red .nil n .nil) (f :: path)))
      (·.setColor .black)) ({n} ∪ nodesAt .nil (f :: path)) := by
    refine keeps.trans (final.keeps.mono ?_)
    rintro p (member | member)
    · exact .inl (by simpa [inorder] using member)
    · exact .inr (.inr member)
  rw [inorder_plug] at sorted
  refine ⟨_, _, ?_, ⟨final.position, insert_fix_balanced (.red .nil .nil) around, ?_⟩, ?_, all⟩
  · have begins : rootPtr (.node .red .nil n .nil) = n := rfl
    rw [begins] at loop
    simp only [linkLeaf, modify_of_ne valid, bind_ok, chosen, rbInsertFixup, loop, root,
      painted]
  · simp only [inorder_blacken, order, all.keys]
    simp only [inorder, List.append_nil, List.pairwise_append] at sorted
    simp only [List.pairwise_append, List.pairwise_cons, List.mem_cons]
    refine ⟨sorted.1, ⟨belongs.2, sorted.2.1⟩, ?_⟩
    rintro p left q (rfl | right)
    · exact belongs.1 p left
    · exact sorted.2.2 p left q right
  · rw [inorder_blacken, order, inorder_plug]
    simp [inorder]

/-- What `rb_insert` does to a valid tree `s` with a node `n` outside it: the node is
added and NULL returned, or an old node has its key, is returned, and the tree stays. -/
structure Inserted (t : RbTree) (s : ColorTree NodePtr) (n : NodePtr) (result : NodePtr)
    (t' : RbTree) (s' : ColorTree NodePtr) : Prop where
  valid : RbValid t' s'
  keeps : Keeps t t' ({n} ∪ {p | p ∈ s.inorder})
  cases : (result = .null ∧ s'.inorder.Perm (n :: s.inorder)) ∨
    (result ∈ s.inorder ∧ (t.nodes result).key = (t.nodes n).key ∧ s' = s ∧
      (∀ p, p ≠ n → t'.nodes p = t.nodes p) ∧ ∀ d, (t'.nodes n).child d = .null)

/-- `rb_insert` returns on every valid tree, in a number of turns that the number of
nodes bounds, and follows no NULL pointer. -/
theorem rb_insert_spec (turns : Nat) (enough : s.inorder.length + 2 ≤ turns) (valid : RbValid t s)
    (some : n ≠ .null) (fresh : n ∉ s.inorder) :
    ∃ result t' s', rbInsert turns t n = .ok (result, t') ∧ Inserted t s n result t' s' := by
  have keeps := cleared_keeps t n
  have old : {n} ⊆ ({n} ∪ {p | p ∈ s.inorder} : Set NodePtr) := Set.subset_union_left
  have here : At (cleared t n) s [] := cleared_at valid.holds
    (by rintro (member | member); exact fresh member; cases member)
  have root : (cleared t n).root = rootPtr s := here.around
  have sorted : s.inorder.Pairwise
      (fun p q => ((cleared t n).nodes p).key < ((cleared t n).nodes q).key) := by
    simp only [keeps.keys]
    exact valid.sorted
  obtain ⟨rest, begins, onNode, onLeaf⟩ : ∃ rest,
      rbInsert turns t n = (if (cleared t n).root = .null then
        rbInsertFixup turns { (cleared t n).update n (·.setColor .black) with root := n } n >>=
          fun t => .ok (.null, t)
      else insertPlace turns (cleared t n) n .null (cleared t n).root >>= rest) ∧
      (∀ x, rest (.inl x) = .ok (x, cleared t n)) ∧
      ∀ y, rest (.inr y) = linkLeaf turns (cleared t n) n y >>= fun t => .ok (.null, t) := by
    simp only [rbInsert, modify_of_ne some]
    exact ⟨_, rfl, fun _ => rfl, fun _ => rfl⟩
  rw [begins, root]
  by_cases empty : s = .nil
  · -- the first node of a tree
    subst empty
    obtain ⟨turns, rfl⟩ : ∃ k, turns = k + 1 := ⟨turns - 1, by omega⟩
    have alone : At ({ (cleared t n).update n (·.setColor .black) with root := n } : RbTree)
        (.node .black .nil n .nil) [] := by
      refine ⟨⟨some, ?_, trivial, trivial⟩, rfl, by simp [inorder, values]⟩
      constructor <;> simp [topPtr, rootPtr, cleared_bare]
      simp [cleared]
    obtain ⟨painted, final⟩ := (Reached.start alone).blacken (by simp)
    have loop : insertFixupLoop (turns + 1)
        ({ (cleared t n).update n (·.setColor .black) with root := n } : RbTree) n =
        .ok { (cleared t n).update n (·.setColor .black) with root := n } :=
      loop_at_root turns alone (by simp)
    refine ⟨.null, _, _, ?_, ⟨final.position, ⟨1, .black .nil .nil⟩, by simp [inorder]⟩,
      ?_, .inl ⟨rfl, by simp [inorder]⟩⟩
    · simp only [rootPtr] at painted
      simp only [rbInsertFixup, loop, bind_ok, painted]
      rfl
    · refine Keeps.trans ?_ (final.keeps.mono ?_)
      · have dark := (keeps.trans (Keeps.set_color (cleared t n) n .black)).mono old
        exact ⟨dark.keys, dark.others⟩
      · rintro p (member | member)
        · exact .inl (by simpa [inorder] using member)
        · cases member
  · rw [if_neg (fun zero => empty ((root_ptr_ne here.focus).mp zero))]
    have atRoot : Belongs (cleared t n) ((cleared t n).nodes n).key [] := by
      simp [Belongs, before, after]
    rcases insert_place turns (by omega) some here atRoot sorted with
      ⟨x, member, same, found⟩ | ⟨path, place, whole, belongs, found⟩
    · refine ⟨x, cleared t n, s, ?_, ⟨here, valid.balanced, sorted⟩, keeps.mono old, .inr ?_⟩
      · simp only [topPtr] at found
        simp only [found, bind_ok, onNode]
      · rw [keeps.keys, keeps.keys] at same
        exact ⟨member, same, rfl, fun p other => keeps.others p other, cleared_bare t n⟩
    · cases path with
      | nil => exact absurd whole.symm empty
      | cons f path =>
        change plug (f :: path) .nil = s at whole
        have nodes : ∀ p, p ∈ values (f :: path) ↔ p ∈ s.inorder := by
          intro p
          rw [← whole]
          simpa [inorder] using ((plug_perm (f :: path) .nil).mem_iff (a := p)).symm
        have length : (f :: path).length + 2 ≤ turns := by
          have count := (plug_perm (f :: path) .nil).length_eq
          rw [whole] at count
          have := length_le_values (f :: path)
          simp only [inorder, List.nil_append] at count
          omega
        obtain ⟨m, balanced⟩ := valid.balanced
        obtain ⟨t', s', linked, valid', perm, keeps'⟩ := link_leaf turns m length place
          (whole ▸ balanced) (whole ▸ sorted) belongs some (by rwa [nodes]) (cleared_bare t n)
        rw [whole] at perm
        refine ⟨.null, t', s', ?_, valid', (keeps.mono old).trans (keeps'.mono ?_),
          .inl ⟨rfl, perm⟩⟩
        · simp only [topPtr] at found
          simp only [found, bind_ok, onLeaf, linked]
        · rintro p (member | member | member)
          · exact .inl member
          · cases member
          · exact .inr ((nodes p).mp member)

end Mftt
