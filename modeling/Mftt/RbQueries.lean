import Mftt.RbRuns

/-!
# Replacing, validating and searching

The other functions on red-black trees. `rb_replace` puts a node with the same key in the
place of another one, `rb_validate` walks a tree that is not empty and checks the parent
pointers, `rb_search` looks for a key, and `rb_search_upper` of the kernel heap for the
least key from a bound on.
-/

namespace Mftt

open RedBlack RbTree List

/-- `if (old->L) { new->L = old->L; SET_PARENT(new->L, new); }`, in either direction. -/
def inheritChild (d : Dir) (t : RbTree) (old new : NodePtr) : Except Fault RbTree := do
  let child := (← t.get old).child d
  if child ≠ .null then
    let t ← t.modify new (·.setChild d child)
    t.modify child (·.setParent new)
  else pure t

/-- The child pointer of `parent` that was `old` becomes `new`. -/
def replaceChild (t : RbTree) (parent old new : NodePtr) : Except Fault RbTree := do
  let p ← t.get parent
  if p.L = old then t.modify parent (·.setChild .left new)
  else if p.R = old then t.modify parent (·.setChild .right new)
  else kpanic "Parent set but no child is us."

/-- The part of `rb_replace` above the node. -/
def replaceAbove (t : RbTree) (parent old new : NodePtr) : Except Fault RbTree := do
  if parent ≠ .null then
    let t ← replaceChild t parent old new
    t.modify new (·.setParent parent)
  else
    assert (t.root = old) "Old have no tree but not the root."
    modify { t with root := new } new (·.setParent .null)

/-- `rb_replace`. -/
def rbReplace (t : RbTree) (old new : NodePtr) : Except Fault RbTree := do
  let o ← t.get old
  let n ← t.get new
  assert (o.key = n.key) "Only nodes with same key could be replace."
  let t ← inheritChild .left t old new
  let t ← inheritChild .right t old new
  let t ← replaceAbove t o.getParent old new
  t.modify new (·.setColor o.getColor)

/-- The check of `rb_validate` on one node. -/
def checkParent (t : RbTree) (node parent : NodePtr) : Except Fault Unit := do
  if parent ≠ .null then
    let p ← t.get parent
    if p.R = node ∨ p.L = node then pure () else kpanic "RB Tree illegal."
  else pure ()

/-- `rb_validate`, for a bounded depth. -/
def rbValidate : Nat → RbTree → NodePtr → Except Fault Unit
  | 0, _, _ => .error .unfinished
  | turns + 1, t, node => do
    let n ← t.get node
    checkParent t node n.getParent
    (if n.L ≠ .null then rbValidate turns t n.L else pure ()) >>= fun _ =>
      if n.R ≠ .null then rbValidate turns t n.R else pure ()

/-- `rb_search`. -/
def rbSearch : Nat → RbTree → NodePtr → Nat → Except Fault NodePtr
  | 0, _, x, _ => if x = .null then pure x else .error .unfinished
  | turns + 1, t, x, key =>
    if x = .null then pure x
    else do
      let n ← t.get x
      if n.key = key then pure x
      else rbSearch turns t (if key < n.key then n.L else n.R) key

/-- The test `(!closet) || (closet->key > x->key)`. -/
def isCloser (t : RbTree) (closet : NodePtr) (key : Nat) : Except Fault Bool :=
  if closet = .null then pure true else do pure (decide (key < (← t.get closet).key))

/-- The loop of `rb_search_upper`. -/
def searchUpperLoop : Nat → RbTree → NodePtr → NodePtr → Nat → Except Fault NodePtr
  | 0, _, _, _, _ => .error .unfinished
  | turns + 1, t, closet, x, key =>
    if x = .null then pure closet
    else do
      let n ← t.get x
      if n.key = key then pure x
      else if key < n.key then
        let closer ← isCloser t closet n.key
        searchUpperLoop turns t (if closer then x else closet) n.L key
      else searchUpperLoop turns t closet n.R key

/-- `rb_search_upper`. -/
def rbSearchUpper (turns : Nat) (t : RbTree) (x : NodePtr) (key : Nat) : Except Fault NodePtr :=
  searchUpperLoop turns t .null x key

open ColorTree

variable {t : RbTree} {s : ColorTree NodePtr} {path : TreePath NodePtr}

/-- The parent of a node in the tree has it as a child. -/
theorem check_parent_at (here : At t s path) :
    checkParent t (rootPtr s) (topPtr path) = .ok () := by
  cases path with
  | nil => simp [checkParent, topPtr]
  | cons f path =>
    obtain ⟨valid, stores, -, -⟩ := here.around
    have found : (t.nodes f.value).R = rootPtr s ∨ (t.nodes f.value).L = rootPtr s := by
      have towards := stores.towards
      cases direction : f.dir with
      | left =>
        rw [direction] at towards
        exact .inr towards
      | right =>
        rw [direction] at towards
        exact .inl towards
    simp only [checkParent, topPtr, ne_eq, valid, not_false_eq_true, if_true,
      get_of_ne valid, bind_ok, found, pure_eq_ok]

/-- `rb_validate` accepts every tree in memory that is not empty. -/
theorem rb_validate_at (turns : Nat) (enough : s.inorder.length ≤ turns) (here : At t s path)
    (nonempty : s ≠ .nil) : rbValidate turns t (rootPtr s) = .ok () := by
  induction s generalizing path turns with
  | nil => exact absurd rfl nonempty
  | node c l p r left right =>
    simp only [inorder, length_append, length_cons] at enough
    obtain ⟨turns, rfl⟩ : ∃ k, turns = k + 1 := ⟨turns - 1, by omega⟩
    have checked := check_parent_at here
    obtain ⟨valid, stores, repLeft, repRight⟩ := here.focus
    have goLeft : (t.nodes p).L = rootPtr l := stores.towards
    have goRight : (t.nodes p).R = rootPtr r := stores.away
    have below : ∀ {a : ColorTree NodePtr}, Rep t p a → (a ≠ .nil → rbValidate turns t (rootPtr a) =
        .ok ()) → (if rootPtr a ≠ .null then rbValidate turns t (rootPtr a) else pure ()) =
        .ok () := by
      intro a rep check
      by_cases empty : a = .nil
      · rw [if_neg (not_not.mpr ((root_ptr_ne rep).mpr empty))]
        rfl
      · rw [if_pos (fun zero => empty ((root_ptr_ne rep).mp zero)), check empty]
    have leftChecked := below repLeft
      (left turns (by omega) (at_child.mp (show At t (side .left c l p r) path from here)))
    have rightChecked := below repRight
      (right turns (by omega) (at_child.mp (show At t (side .right c r p l) path from here)))
    change rbValidate (turns + 1) t p = .ok ()
    rw [rbValidate, get_of_ne valid, bind_ok, stores.parent]
    change checkParent t p (topPtr path) = .ok () at checked
    rw [checked, bind_ok, goLeft, goRight, leftChecked, bind_ok, rightChecked]

section Search

variable {parent : NodePtr}

/-- The node with the least key from `key` on, among the given ones and a candidate with
a larger key; NULL if there is none. -/
structure LeastUpper (t : RbTree) (nodes : List NodePtr) (closet : NodePtr) (key : Nat)
    (result : NodePtr) : Prop where
  null : result = .null → closet = .null ∧ ∀ p ∈ nodes, (t.nodes p).key < key
  found : result ≠ .null → (result = closet ∨ result ∈ nodes) ∧ key ≤ (t.nodes result).key ∧
    ∀ p ∈ nodes, key ≤ (t.nodes p).key → (t.nodes result).key ≤ (t.nodes p).key

/-- The memory holds a binary tree: every node stores its children. -/
def HoldsTree (t : RbTree) : ColorTree NodePtr → Prop
  | .nil => True
  | .node _ l p r => p ≠ .null ∧ (t.nodes p).L = rootPtr l ∧ (t.nodes p).R = rootPtr r ∧
      HoldsTree t l ∧ HoldsTree t r

theorem Rep.holds_tree (rep : Rep t parent s) : HoldsTree t s := by
  induction s generalizing parent with
  | nil => trivial
  | node c l p r left right =>
    obtain ⟨valid, stores, repLeft, repRight⟩ := rep
    exact ⟨valid, stores.towards, stores.away, left repLeft, right repRight⟩

/-- The candidate after a node with a larger key: the node, or the old candidate if it has
the same key. -/
theorem closer_candidate {closet x : NodePtr} (valid : x ≠ .null)
    (candidate : closet ≠ .null → (t.nodes x).key ≤ (t.nodes closet).key) :
    ∃ closer, isCloser t closet (t.nodes x).key = .ok closer ∧
      (if closer then x else closet) ≠ .null ∧
      (t.nodes (if closer then x else closet)).key = (t.nodes x).key := by
  by_cases none : closet = .null
  · exact ⟨true, if_pos none, valid, rfl⟩
  · by_cases smaller : (t.nodes x).key < (t.nodes closet).key
    · exact ⟨true, by simp [isCloser, none, smaller], valid, rfl⟩
    · have same := Nat.le_antisymm (Nat.le_of_not_lt smaller) (candidate none)
      exact ⟨false, by simp [isCloser, none, smaller], none, same⟩

/-- The loop keeps the best candidate so far, whose key is above all keys still to be
searched.

Proof: induction on the subtree still to be searched. -/
theorem search_upper_loop (turns : Nat) (enough : s.inorder.length < turns) (closet : NodePtr)
    {key : Nat} (holds : HoldsTree t s)
    (sorted : s.inorder.Pairwise (fun p q => (t.nodes p).key ≤ (t.nodes q).key))
    (candidate : closet ≠ .null → key < (t.nodes closet).key ∧
      ∀ p ∈ s.inorder, (t.nodes p).key ≤ (t.nodes closet).key) :
    ∃ result, searchUpperLoop turns t closet (rootPtr s) key = .ok result ∧
      LeastUpper t s.inorder closet key result := by
  induction s generalizing turns closet with
  | nil =>
    obtain ⟨turns, rfl⟩ : ∃ k, turns = k + 1 := ⟨turns - 1, by omega⟩
    refine ⟨closet, if_pos rfl, ⟨fun null => ⟨null, by simp [inorder]⟩, fun some => ?_⟩⟩
    exact ⟨.inl rfl, (candidate some).1.le, by simp [inorder]⟩
  | node c l x r left right =>
    simp only [inorder, length_append, length_cons] at enough
    obtain ⟨turns, rfl⟩ : ∃ k, turns = k + 1 := ⟨turns - 1, by omega⟩
    obtain ⟨valid, goLeft, goRight, holdsLeft, holdsRight⟩ := holds
    simp only [inorder, mem_append, mem_cons] at candidate
    simp only [inorder, pairwise_append, pairwise_cons, mem_cons] at sorted
    obtain ⟨sortedLeft, ⟨above, sortedRight⟩, below⟩ := sorted
    change ∃ result, searchUpperLoop (turns + 1) t closet x key = .ok result ∧ _
    rw [searchUpperLoop, if_neg valid, get_of_ne valid, bind_ok, goLeft, goRight]
    rcases Nat.lt_trichotomy key (t.nodes x).key with less | equal | greater
    · -- the node is the new candidate, unless the old one has its key
      obtain ⟨closer, tested, some', same⟩ := closer_candidate valid
        (fun some => (candidate some).2 x (.inr (.inl rfl)))
      rw [if_neg less.ne', if_pos less, tested, bind_ok]
      have either : (if closer then x else closet) = x ∨ (if closer then x else closet) = closet := by
        cases closer <;> simp
      generalize (if closer then x else closet) = best at some' same either ⊢
      obtain ⟨result, found, least⟩ := left turns (by omega) best holdsLeft sortedLeft
        (fun _ => ⟨by rwa [same], fun p member => by rw [same]; exact below p member x (.inl rfl)⟩)
      refine ⟨result, found, ⟨fun null => absurd (least.null null).1 some', fun some => ?_⟩⟩
      obtain ⟨origin, bound, minimal⟩ := least.found some
      have atMost : (t.nodes result).key ≤ (t.nodes x).key := by
        rcases origin with rfl | inLeft
        · exact same.le
        · exact below result inLeft x (.inl rfl)
      refine ⟨?_, bound, ?_⟩
      · simp only [inorder, mem_append, mem_cons]
        rcases origin with rfl | inLeft
        · rcases either with isNode | isOld
          · exact .inr (.inr (.inl isNode))
          · exact .inl isOld
        · exact .inr (.inl inLeft)
      · intro p member large
        simp only [inorder, mem_append, mem_cons] at member
        rcases member with inLeft | rfl | inRight
        · exact minimal p inLeft large
        · exact atMost
        · exact atMost.trans (above p inRight)
    · rw [if_pos equal.symm]
      refine ⟨x, rfl, ⟨fun null => absurd null valid, fun _ => ?_⟩⟩
      exact ⟨.inr (by simp [inorder]), equal.le, fun p _ large => equal ▸ large⟩
    · -- everything on the left is too small
      rw [if_neg greater.ne, if_neg greater.not_gt]
      obtain ⟨result, found, least⟩ := right turns (by omega) closet holdsRight sortedRight
        (fun some =>
          ⟨(candidate some).1, fun p member => (candidate some).2 p (.inr (.inr member))⟩)
      have small : ∀ p, p ∈ l.inorder ∨ p = x → (t.nodes p).key < key := by
        rintro p (inLeft | rfl)
        · exact (below p inLeft x (.inl rfl)).trans_lt greater
        · exact greater
      refine ⟨result, found, ⟨fun null => ?_, fun some => ?_⟩⟩
      · obtain ⟨none, all⟩ := least.null null
        refine ⟨none, fun p member => ?_⟩
        simp only [inorder, mem_append, mem_cons] at member
        rcases member with inLeft | rfl | inRight
        · exact small p (.inl inLeft)
        · exact greater
        · exact all p inRight
      · obtain ⟨origin, bound, minimal⟩ := least.found some
        refine ⟨origin.imp_right (fun inRight => by simp [inorder, inRight]), bound, ?_⟩
        intro p member large
        simp only [inorder, mem_append, mem_cons] at member
        rcases member with inLeft | rfl | inRight
        · exact absurd (small p (.inl inLeft)) large.not_gt
        · exact absurd greater large.not_gt
        · exact minimal p inRight large

/-- `rb_search_upper` returns the node with the least key from `key` on, or NULL if all
keys are smaller. -/
theorem rb_search_upper_spec (turns key : Nat) (enough : s.inorder.length < turns)
    (valid : RbValid t s) :
    ∃ result, rbSearchUpper turns t t.root key = .ok result ∧
      LeastUpper t s.inorder .null key result := by
  have root : t.root = rootPtr s := valid.holds.around
  rw [root]
  exact search_upper_loop turns enough .null valid.holds.focus.holds_tree
    (valid.sorted.imp Nat.le_of_lt) (fun some => absurd rfl some)

theorem left_null_of_least {p : NodePtr} (valid : RbValid t s) (member : p ∈ s.inorder)
    (least : ∀ q ∈ s.inorder, (t.nodes p).key ≤ (t.nodes q).key) : (t.nodes p).L = .null := by
  obtain ⟨path, c, l, r, rfl⟩ := exists_position member
  obtain ⟨-, stores, repL, -⟩ := (at_plug.mp valid.holds).focus
  have left : (t.nodes p).L = rootPtr l := stores.towards
  by_contra some
  rw [left] at some
  have inside := root_ptr_mem repL some
  have sorted := valid.sorted
  rw [inorder_plug, inorder] at sorted least
  simp only [pairwise_append] at sorted
  have smaller := sorted.1.2.1.2.2 (rootPtr l) inside p (mem_cons_self ..)
  exact absurd (least (rootPtr l) (by simp [inside])) (Nat.not_le.mpr smaller)

/-- A search goes down one way; by the order of the keys the other subtrees do not have the key. -/
theorem search_holds (turns : Nat) (enough : s.depth ≤ turns) {key : Nat} (holds : HoldsTree t s)
    (sorted : s.inorder.Pairwise (fun p q => (t.nodes p).key < (t.nodes q).key)) :
    ∃ result, rbSearch turns t (rootPtr s) key = .ok result ∧
      (result = .null ∧ (∀ p ∈ s.inorder, (t.nodes p).key ≠ key) ∨
        result ∈ s.inorder ∧ (t.nodes result).key = key) := by
  induction s generalizing turns with
  | nil => exact ⟨.null, by cases turns <;> rfl, .inl ⟨rfl, nofun⟩⟩
  | node c l x r left right =>
    obtain ⟨valid, goLeft, goRight, holdsLeft, holdsRight⟩ := holds
    simp only [depth] at enough
    obtain ⟨turns, rfl⟩ : ∃ k, turns = k + 1 := ⟨turns - 1, by omega⟩
    simp only [inorder, pairwise_append, pairwise_cons, mem_cons] at sorted
    obtain ⟨sortedLeft, ⟨above, sortedRight⟩, below⟩ := sorted
    simp only [inorder, mem_append, mem_cons]
    change ∃ result, rbSearch (turns + 1) t x key = .ok result ∧ _
    rw [rbSearch, if_neg valid, get_of_ne valid, bind_ok, goLeft, goRight]
    rcases Nat.lt_trichotomy key (t.nodes x).key with less | equal | greater
    · rw [if_neg less.ne', if_pos less]
      obtain ⟨result, found, outcome⟩ := left turns (by omega) holdsLeft sortedLeft
      refine ⟨result, found, outcome.imp (fun none => ⟨none.1, ?_⟩) fun one => ⟨.inl one.1, one.2⟩⟩
      rintro p (inLeft | rfl | inRight)
      · exact none.2 p inLeft
      · exact less.ne'
      · exact (less.trans (above p inRight)).ne'
    · exact ⟨x, if_pos equal.symm, .inr ⟨.inr (.inl rfl), equal.symm⟩⟩
    · rw [if_neg greater.ne, if_neg greater.not_gt]
      obtain ⟨result, found, outcome⟩ := right turns (by omega) holdsRight sortedRight
      refine ⟨result, found,
        outcome.imp (fun none => ⟨none.1, ?_⟩) fun one => ⟨.inr (.inr one.1), one.2⟩⟩
      rintro p (inLeft | rfl | inRight)
      · exact ((below p inLeft x (.inl rfl)).trans greater).ne
      · exact greater.ne
      · exact none.2 p inRight

/-- In the tree after every history `rb_search` finds the node with a key, or NULL if there is
none, and looks at no more nodes than twice the logarithm of their number. -/
theorem rb_search_finds {nodes : Finset NodePtr} (reach : TreeReachable t nodes) (turns key : Nat)
    (enough : 2 * (nodes.card + 1).log2 ≤ turns) :
    ∃ result, rbSearch turns t t.root key = .ok result ∧
      (result = .null ∧ (∀ p ∈ nodes, (t.nodes p).key ≠ key) ∨
        result ∈ nodes ∧ (t.nodes result).key = key) := by
  obtain ⟨s, valid, rfl⟩ := reach.valid
  obtain ⟨n, balanced⟩ := valid.balanced
  have root : t.root = rootPtr s := valid.holds.around
  rw [valid.card] at enough
  simp only [root, mem_toFinset]
  exact search_holds turns (balanced.depth_le_log.trans enough) valid.holds.focus.holds_tree
    valid.sorted

/-- After the removal the last node is found, and the middle one is not. -/
theorem search_after_removal : ∃ t, TreeReachable t {⟨24#64, by decide⟩, ⟨8#64, by decide⟩} ∧
    rbSearch 2 t t.root 24 = .ok ⟨24#64, by decide⟩ ∧ rbSearch 2 t t.root 16 = .ok .null := by
  obtain ⟨-, t, -, -, reach, keys⟩ := three_nodes_less_one
  obtain ⟨last, found, here⟩ := rb_search_finds reach 2 24 (by decide)
  obtain ⟨middle, missed, gone⟩ := rb_search_finds reach 2 16 (by decide)
  simp only [keys, Finset.mem_insert, Finset.mem_singleton, forall_eq_or_imp, forall_eq]
    at here gone
  refine ⟨t, reach, found.trans (congrArg _ ?_), missed.trans (congrArg _ ?_)⟩
  · obtain ⟨-, other, -⟩ | ⟨rfl | rfl, key⟩ := here
    · exact absurd rfl other
    · rfl
    · exact absurd key (by decide)
  · obtain ⟨null, -⟩ | ⟨rfl | rfl, key⟩ := gone
    · exact null
    · exact absurd key (by decide)
    · exact absurd key (by decide)

end Search

section Replace

variable {p n : NodePtr} {c : Color} {l r : ColorTree NodePtr}

/-- One subtree moves below the new node. -/
theorem inherit_child {d : Dir} {a : ColorTree NodePtr} (validP : p ≠ .null) (validN : n ≠ .null)
    (child : (t.nodes p).child d = rootPtr a) (rep : Rep t p a) (distinct : a.inorder.Nodup)
    (outside : n ∉ a.inorder) (bare : (t.nodes n).child d = .null) :
    ∃ t', inheritChild d t p n = .ok t' ∧ Rep t' n a ∧ (t'.nodes n).child d = rootPtr a ∧
      (t'.nodes n).child d.opp = (t.nodes n).child d.opp ∧ t'.root = t.root ∧
      Keeps t t' {x | x = n ∨ x ∈ a.inorder} := by
  by_cases empty : a = .nil
  · subst empty
    refine ⟨t, ?_, trivial, bare, rfl, rfl, Keeps.refl t _⟩
    have null : (t.nodes p).child d = .null := child
    simp [inheritChild, validP, null]
  · have some : rootPtr a ≠ .null := fun zero => empty ((root_ptr_ne rep).mp zero)
    obtain ⟨t', adopted, rep', root, keeps⟩ := adopt_rep n
      (rep.update (p := n) (f := (·.setChild d (rootPtr a))) outside) distinct
    have new : t'.nodes n = (t.nodes n).setChild d (rootPtr a) := by
      rw [keeps.others n (fun inside => outside inside.2), nodes_update_self]
    simp only [adopt, ne_eq, some, not_false_eq_true, if_true] at adopted
    refine ⟨t', ?_, rep', by simp [new], by simp [new], root, ?_⟩
    · simp only [inheritChild, get_of_ne validP, bind_ok, child, ne_eq, some,
        not_false_eq_true, if_true, modify_of_ne validN, adopted]
    · exact ((Keeps.set_child t n d _).mono fun x same => .inl same).trans
        (keeps.mono fun x inside => .inr inside.2)

/-- The place of the old node goes to the new one. -/
theorem replace_above (around : RepPath t p path) (validP : p ≠ .null) (validN : n ≠ .null)
    (distinct : (TreePath.values path).Nodup) (outsideP : p ∉ TreePath.values path)
    (outsideN : n ∉ TreePath.values path) :
    ∃ t', replaceAbove t (topPtr path) p n = .ok t' ∧ RepPath t' n path ∧
      t'.nodes n = (t.nodes n).setParent (topPtr path) ∧
      Keeps t t' {x | x = n ∨ x ∈ TreePath.values path} := by
  obtain ⟨t₁, relinked, around₁, keeps₁⟩ := relink_path .left n around validP distinct outsideP
  have kept : t₁.nodes n = t.nodes n := keeps₁.others n (fun inside => outsideN inside.2)
  refine ⟨t₁.update n (·.setParent (topPtr path)), ?_, around₁.update outsideN, ?_,
    (keeps₁.mono fun x inside => .inr inside.2).trans
      ((Keeps.set_parent t₁ n _).mono fun x same => .inl same)⟩
  · cases path with
    | nil =>
      have root : t.root = p := around
      cases relinked
      simp [replaceAbove, topPtr, root, validN]
    | cons f path =>
      obtain ⟨valid, stores, -, -⟩ := around
      have found : (t.nodes f.value).L = p ∨ (t.nodes f.value).R = p := by
        have towards := stores.towards
        cases direction : f.dir with
        | left =>
          rw [direction] at towards
          exact .inl towards
        | right =>
          rw [direction] at towards
          exact .inr towards
      have replaced : replaceChild t f.value p n = .ok t₁ := by
        rw [← relinked]
        simp only [replaceChild, relink, topPtr, get_of_ne valid, bind_ok, ne_eq, valid,
          not_false_eq_true, RbNode.child, Dir.opp]
        by_cases left : (t.nodes f.value).L = p
        · simp only [left, if_true]
        · simp only [left, found.resolve_left left, if_true]
      simp only [replaceAbove, topPtr, ne_eq, valid, not_false_eq_true, if_true, replaced, bind_ok,
        modify_of_ne validN]
  · rw [nodes_update_self, kept]

/-- `rb_replace` puts a node that is not in the tree in the place of one with the same
key. The new node has no children of its own. -/
theorem rb_replace_at (here : At t (.node c l p r) path) (validN : n ≠ .null)
    (fresh : n ∉ nodesAt (.node c l p r) path) (bare : ∀ d, (t.nodes n).child d = .null)
    (same : (t.nodes p).key = (t.nodes n).key) :
    ∃ t', rbReplace t p n = .ok t' ∧ At t' (.node c l n r) path ∧
      Keeps t t' ({n} ∪ nodesAt (.node c l p r) path) ∧ t'.nodes p = t.nodes p := by
  obtain ⟨⟨validP, stores, repL, repR⟩, around, distinct⟩ := here
  simp only [nodesAt, inorder, Set.mem_ofPred_eq, mem_append, mem_cons, not_or] at fresh
  obtain ⟨⟨nl, differ, nr⟩, np⟩ := fresh
  have flat := nodup_node.mp distinct
  simp only [nodup_cons, mem_append, not_or] at flat
  obtain ⟨⟨⟨pl, pr⟩, pp⟩, rest⟩ := flat
  obtain ⟨⟨uniqueL, uniqueR, lr⟩, uniqueP, apart⟩ := by simpa only [nodup_append] using rest
  -- both subtrees move below the new node
  obtain ⟨t₁, first, repL₁, left₁, right₁, root₁, keeps₁⟩ :=
    inherit_child (d := .left) validP validN stores.towards repL uniqueL nl (bare .left)
  have keptP₁ : t₁.nodes p = t.nodes p :=
    keeps₁.others p (by rintro (same | inside); exacts [differ same.symm, pl inside])
  have repR₁ : Rep t₁ p r := by
    refine repR.congr (fun x member => keeps₁.others x ?_)
    rintro (rfl | inside)
    · exact nr member
    · exact lr x inside x member rfl
  obtain ⟨t₂, second, repR₂, right₂, left₂, root₂, keeps₂⟩ :=
    inherit_child (d := .right) validP validN (by rw [keptP₁]; exact stores.away) repR₁ uniqueR nr
      (right₁.trans (bare .right))
  have repL₂ : Rep t₂ n l := by
    refine repL₁.congr (fun x member => keeps₂.others x ?_)
    rintro (rfl | inside)
    · exact nl member
    · exact lr x member x inside rfl
  have around₂ : RepPath t₂ p path := by
    refine around.congr (root₂.trans root₁) (fun x member => ?_)
    rw [keeps₂.others x, keeps₁.others x]
    · rintro (rfl | inside)
      · exact np member
      · exact apart x (by simp [inside]) x member rfl
    · rintro (rfl | inside)
      · exact np member
      · exact apart x (by simp [inside]) x member rfl
  -- then the new node gets the place and the colour
  obtain ⟨t₃, third, around₃, new₃, keeps₃⟩ :=
    replace_above around₂ validP validN uniqueP pp np
  have offPath : ∀ {a : ColorTree NodePtr}, (∀ x ∈ a.inorder, x ∈ l.inorder ++ r.inorder) →
      n ∉ a.inorder → Rep t₂ n a → Rep (t₃.update n (·.setColor c)) n a := by
    intro a inside outside rep
    refine (rep.congr fun x member => keeps₃.others x ?_).update outside
    rintro (rfl | onPath)
    · exact outside member
    · exact apart x (inside x member) x onPath rfl
  refine ⟨t₃.update n (·.setColor c), ?_, ⟨⟨validN, ?_, ?_, ?_⟩, around₃.update np, ?_⟩, ?_, ?_⟩
  · simp only [rbReplace, get_of_ne validP, get_of_ne validN, bind_ok,
      assert_true _ same, first, second, stores.parent, third, stores.color,
      modify_of_ne validN]
  · rw [nodes_update_self, new₃]
    constructor <;> simp only [RbNode.get_parent_set_color, RbNode.get_parent_set_parent,
      RbNode.get_color_set_color, RbNode.child_set_color]
    · exact left₂.trans left₁
    · exact right₂
  · exact offPath (fun x member => by simp [member]) nl repL₂
  · exact offPath (fun x member => by simp [member]) nr repR₂
  · refine nodup_node.mpr (nodup_cons.mpr ⟨?_, rest⟩)
    simp only [mem_append]
    rintro ((inL | inR) | onPath)
    exacts [nl inL, nr inR, np onPath]
  · have scope : ∀ x, (x = n ∨ x ∈ l.inorder ∨ x ∈ r.inorder ∨ x ∈ TreePath.values path) →
        x ∈ ({n} ∪ nodesAt (.node c l p r) path : Set NodePtr) := by
      intro x member
      simp only [nodesAt, inorder, mem_append, mem_cons]
      rcases member with same | inL | inR | onPath
      exacts [.inl same, .inr (.inl (.inl inL)), .inr (.inl (.inr (.inr inR))), .inr (.inr onPath)]
    refine (keeps₁.mono ?_).trans ((keeps₂.mono ?_).trans ((keeps₃.mono ?_).trans
      ((Keeps.set_color t₃ n c).mono ?_)))
    · exact fun x member => scope x (member.imp_right .inl)
    · exact fun x member => scope x (member.imp_right (.inr ∘ .inl))
    · exact fun x member => scope x (member.imp_right (.inr ∘ .inr))
    · exact fun x member => scope x (.inl member)
  · rw [nodes_update_ne (Ne.symm differ), keeps₃.others p, keeps₂.others p, keptP₁]
    · exact fun inside => inside.elim (fun same => differ same.symm) pr
    · exact fun inside => inside.elim (fun same => differ same.symm) pp

/-- `rb_replace` on a valid tree: the order of the nodes stays, with the new node in the
place of the old one. -/
theorem rb_replace_spec (valid : RbValid t s) (member : p ∈ s.inorder) (validN : n ≠ .null)
    (fresh : n ∉ s.inorder) (bare : ∀ d, (t.nodes n).child d = .null)
    (same : (t.nodes p).key = (t.nodes n).key) :
    ∃ t' s', rbReplace t p n = .ok t' ∧ RbValid t' s' ∧
      s'.inorder = s.inorder.map (fun x => if x = p then n else x) ∧
      Keeps t t' ({n} ∪ {x | x ∈ s.inorder}) ∧ t'.nodes p = t.nodes p := by
  obtain ⟨path, c, l, r, rfl⟩ := exists_position member
  have here := at_plug.mp valid.holds
  obtain ⟨k, balanced⟩ := valid.balanced
  obtain ⟨shade, height, inner, outer⟩ := TreePath.balanced_of_plug balanced
  have inner' : (node c l n r).Balanced shade height := by
    cases inner with
    | red left right => exact .red left right
    | black left right => exact .black left right
  have outside : n ∉ nodesAt (.node c l p r) path := by rwa [nodes_at_plug]
  obtain ⟨t', returns, here', keeps, left⟩ := rb_replace_at here validN outside bare same
  rw [nodes_at_plug] at keeps
  have order : (plug path (.node c l n r)).inorder =
      (plug path (.node c l p r)).inorder.map (fun x => if x = p then n else x) := by
    have distinct : (plug path (.node c l p r)).inorder.Nodup := by
      simpa [TreePath.values] using valid.holds.distinct
    have parts : ∀ x, (plug path (.node c l x r)).inorder =
        (TreePath.before path ++ l.inorder) ++ x :: (r.inorder ++ TreePath.after path) := by
      simp [inorder_plug, inorder]
    rw [parts] at distinct
    have absent := (nodup_cons.mp (nodup_middle.mp distinct)).1
    have others : ∀ xs : List NodePtr, p ∉ xs → xs.map (fun x => if x = p then n else x) = xs := by
      intro xs absent
      conv_rhs => rw [← map_id xs]
      refine map_congr_left (fun x inside => if_neg ?_)
      rintro rfl
      exact absent inside
    rw [parts, parts, map_append, map_cons, if_pos rfl,
      others _ (fun inside => absent (mem_append_left _ inside)),
      others _ (fun inside => absent (mem_append_right _ inside))]
  refine ⟨t', _, returns, ⟨at_plug.mpr here', outer.fill inner', ?_⟩, order, keeps, left⟩
  rw [order, pairwise_map]
  refine valid.sorted.imp (fun {x y} less => ?_)
  have kept : ∀ x, (t'.nodes (if x = p then n else x)).key = (t.nodes x).key := by
    intro x
    rw [keeps.keys]
    split
    · next found => rw [found, same]
    · rfl
  rwa [kept, kept]

end Replace

end Mftt
