import Mathlib.Data.List.Basic
import Mftt.RbRuns

/-!
# Neighbours in a red-black tree

`rb_succ` and `rb_pred` find the next node in either direction without a search for its key. A
node with a child in the direction has its neighbour at the near end of the subtree there; any
other node has it above: the first parent that is not left again in the direction. The parents
come from words that hold a colour too, and every insertion and removal rewrites them.
-/

namespace Mftt

open RedBlack ColorTree List

/-- `while (x->L) x = x->L`, in either direction. -/
def outermost (d : Dir) : Nat → RbTree → NodePtr → Except Fault NodePtr
  | 0, _, _ => .error .unfinished
  | turns + 1, t, x => do
    let next := (← t.get x).child d
    if next ≠ .null then outermost d turns t next else pure x

/-- `while (p && n == p->R) { n = p; p = GET_PARENT(p); }`, in either direction. -/
def climb (d : Dir) : Nat → RbTree → NodePtr → NodePtr → Except Fault NodePtr
  | 0, _, _, _ => .error .unfinished
  | turns + 1, t, n, p =>
    if p = .null then pure p
    else do
      let above ← t.get p
      if n = above.child d then climb d turns t p above.getParent else pure p

/-- The two functions are mirror images. -/
def neighbour (d : Dir) (turns : Nat) (t : RbTree) (n : NodePtr) : Except Fault NodePtr := do
  let node ← t.get n
  if node.child d ≠ .null then outermost d.opp turns t (node.child d)
  else climb d turns t n node.getParent

def rbSucc : Nat → RbTree → NodePtr → Except Fault NodePtr := neighbour .right

def rbPred : Nat → RbTree → NodePtr → Except Fault NodePtr := neighbour .left

/-- The leftmost node of a tree, or NULL. -/
def firstNode (turns : Nat) (t : RbTree) : Except Fault NodePtr :=
  if t.root = .null then pure .null else outermost .left turns t t.root

/-- The nodes that are met by `rb_succ` from a node on, until it returns NULL. -/
def succWalk (turns : Nat) (t : RbTree) : Nat → NodePtr → Except Fault (List NodePtr)
  | 0, p => if p = .null then pure [] else .error .unfinished
  | left + 1, p =>
    if p = .null then pure []
    else do
      let next ← rbSucc turns t p
      let rest ← succWalk turns t left next
      pure (p :: rest)

variable {t : RbTree} {s : ColorTree NodePtr} {d : Dir} {turns : Nat}

section Positions

variable {path : TreePath NodePtr}

/-- The loop down a subtree ends at the first node in the other direction. -/
theorem outermost_rep {parent : NodePtr} (enough : s.inorder.length ≤ turns)
    (rep : Rep t parent s) (nonempty : s ≠ .nil) :
    outermost d.opp turns t (rootPtr s) = .ok ((s.along d).headD .null) := by
  induction s using side_induction d.opp generalizing parent turns with
  | nil => exact absurd rfl nonempty
  | side c a p b ih _ =>
    obtain ⟨valid, stores, near, -⟩ := rep_side.mp rep
    have count := (inorder_side_perm d.opp c a b p).length_eq
    rw [length_append, length_cons] at count
    obtain ⟨turns, rfl⟩ : ∃ k, turns = k + 1 := ⟨turns - 1, by omega⟩
    rw [root_ptr_side, outermost, RbTree.get_of_ne valid, bind_ok, stores.towards, side_opp,
      along_side]
    by_cases empty : a = .nil
    · subst empty
      cases d <;> rfl
    · have some : rootPtr a ≠ .null := fun null => empty ((root_ptr_ne near).mp null)
      obtain ⟨q, rest, first⟩ := exists_along d empty
      rw [if_pos some, ih (by omega) near empty, first]
      rfl

/-- The loop up a path ends at the first node beyond it. -/
theorem climb_at (enough : path.length < turns) (here : At t s path) (nonempty : s ≠ .nil) :
    climb d turns t (rootPtr s) (topPtr path) = .ok ((TreePath.beyond d path).headD .null) := by
  induction path generalizing s turns with
  | nil =>
    obtain ⟨turns, rfl⟩ : ∃ k, turns = k + 1 := ⟨turns - 1, by simp at enough; omega⟩
    rfl
  | cons f path ih =>
    obtain ⟨turns, rfl⟩ : ∃ k, turns = k + 1 := ⟨turns - 1, by simp at enough; omega⟩
    obtain ⟨valid, stores, -, -⟩ := here.around
    have outer := at_child.mpr here
    have apart := here.root_ne_sibling nonempty
    rw [topPtr, climb, if_neg valid, RbTree.get_of_ne valid, bind_ok, TreePath.beyond]
    rcases Dir.eq_or_opp d f.dir with same | other
    · have inside : path.length < turns := by simpa using enough
      have up := ih inside outer (by cases f.dir <;> simp [side])
      rw [root_ptr_side] at up
      rw [if_pos same, ← same, stores.towards, if_pos rfl, stores.parent, same, up]
    · have child : (t.nodes f.value).child d = rootPtr f.sibling := by
        have away := stores.away
        rwa [other, Dir.opp_opp] at away
      rw [child, if_neg (Ne.symm apart), if_neg (by simp [other])]
      rfl

theorem neighbour_at {c : Color} {a b : ColorTree NodePtr} {n : NodePtr}
    (below : a.inorder.length ≤ turns) (above : path.length < turns)
    (here : At t (side d c a n b) path) :
    neighbour d turns t n = .ok ((a.along d ++ TreePath.beyond d path).headD .null) := by
  obtain ⟨valid, stores, near, -⟩ := rep_side.mp here.focus
  rw [neighbour, RbTree.get_of_ne valid, bind_ok, stores.towards]
  by_cases empty : a = .nil
  · subst empty
    have up := climb_at (d := d) above here (by cases d <;> simp [side])
    rw [root_ptr_side] at up
    rw [stores.parent, up]
    cases d <;> rfl
  · have some : rootPtr a ≠ .null := fun null => empty ((root_ptr_ne near).mp null)
    obtain ⟨q, rest, first⟩ := exists_along d empty
    rw [if_pos some, outermost_rep below near empty, first]
    rfl

end Positions

/-! ## The order of the keys -/

/-- The key of `q` lies beyond that of `p` in a direction. -/
def KeyBeyond (d : Dir) (t : RbTree) (p q : NodePtr) : Prop :=
  match d with
  | .left => (t.nodes q).key < (t.nodes p).key
  | .right => (t.nodes p).key < (t.nodes q).key

/-- `q` is the nearest of the nodes beyond `n` in a direction, or NULL if there is none. -/
def Nearest (d : Dir) (t : RbTree) (nodes : Finset NodePtr) (n q : NodePtr) : Prop :=
  (q = .null ∧ ∀ m ∈ nodes, ¬ KeyBeyond d t n m) ∨
    (q ∈ nodes ∧ KeyBeyond d t n q ∧ ∀ m ∈ nodes, KeyBeyond d t n m → m = q ∨ KeyBeyond d t q m)

theorem KeyBeyond.asymm {p q : NodePtr} (ahead : KeyBeyond d t p q) : ¬ KeyBeyond d t q p := by
  cases d <;> exact Nat.lt_asymm ahead

theorem nearest_of_order {behind beyond : List NodePtr} {n : NodePtr}
    (order : (behind ++ n :: beyond).Pairwise (KeyBeyond d t)) :
    Nearest d t (behind ++ n :: beyond).toFinset n (beyond.headD .null) := by
  obtain ⟨-, later, earlier⟩ := pairwise_append.mp order
  obtain ⟨next, rest⟩ := pairwise_cons.mp later
  have only : ∀ m ∈ behind ++ n :: beyond, KeyBeyond d t n m → m ∈ beyond := by
    intro m member ahead
    rcases mem_append.mp member with before | after
    · exact absurd ahead (earlier m before n mem_cons_self).asymm
    · rcases mem_cons.mp after with rfl | there
      · exact absurd ahead ahead.asymm
      · exact there
  cases beyond with
  | nil =>
    refine .inl ⟨rfl, fun m member ahead => ?_⟩
    cases only m (mem_toFinset.mp member) ahead
  | cons q rest' =>
    refine .inr ⟨by simp, next q mem_cons_self, fun m member ahead => ?_⟩
    rcases mem_cons.mp (only m (mem_toFinset.mp member) ahead) with same | there
    · exact .inl same
    · exact .inr ((pairwise_cons.mp rest).1 m there)

section Valid

variable {n : NodePtr} {behind beyond : List NodePtr}

theorem RbValid.along_ordered (valid : RbValid t s) (d : Dir) :
    (s.along d).Pairwise (KeyBeyond d t) := by
  cases d with
  | left => exact pairwise_reverse.mpr valid.sorted
  | right => exact valid.sorted

variable (valid : RbValid t s) (enough : s.inorder.length ≤ turns)
include valid enough

/-- From each node of a valid tree the function goes to the next one in its direction. -/
theorem RbValid.neighbour_next (split : s.along d = behind ++ n :: beyond) :
    n ≠ .null ∧ neighbour d turns t n = .ok (beyond.headD .null) := by
  have member : n ∈ s.inorder := (s.along_perm d).mem_iff.mp (by simp [split])
  have distinct : (s.along d).Nodup := (valid.along_ordered d).imp fun ahead same => by
    subst same
    exact ahead.asymm ahead
  obtain ⟨path, c, a, b, rfl⟩ := exists_position_side d member
  have here := at_plug.mp valid.holds
  obtain ⟨valid', -, -, -⟩ := rep_side.mp here.focus
  have count := (plug_perm path (side d c a n b)).length_eq
  have long := TreePath.length_le_values path
  rw [length_append, (inorder_side_perm ..).length_eq, length_append,
    length_cons] at count
  refine ⟨valid', ?_⟩
  rw [neighbour_at (by omega) (by omega) here]
  -- the node occurs once, so that what lies beyond it is the same in both lists
  obtain ⟨first, whole⟩ := along_plug d path (side d c a n b)
  rw [along_side, append_assoc, ← append_assoc, cons_append] at whole
  rw [whole] at distinct split
  have once := nodup_middle.mp distinct
  rw [nodup_cons, mem_append, not_or] at once
  obtain ⟨-, -, same⟩ := (append_cons_inj_of_notMem once.1.1 once.1.2).mp split
  rw [same]

/-- A walk from a node meets what is left of the order. -/
theorem RbValid.succ_walk (left : Nat) (bound : beyond.length ≤ left)
    (split : s.inorder = behind ++ beyond) :
    succWalk turns t left (beyond.headD .null) = .ok beyond := by
  induction beyond generalizing behind left with
  | nil => cases left <;> rfl
  | cons p rest ih =>
    rw [length_cons] at bound
    obtain ⟨left, rfl⟩ : ∃ k, left = k + 1 := ⟨left - 1, by omega⟩
    have next : p ≠ .null ∧ rbSucc turns t p = .ok (rest.headD .null) :=
      valid.neighbour_next enough split
    have further := ih left (by omega) (by simpa using split : s.inorder = (behind ++ [p]) ++ rest)
    rw [headD_cons, succWalk, if_neg next.1, next.2, bind_ok, further]
    rfl

theorem RbValid.first_node : firstNode turns t = .ok (s.inorder.headD .null) := by
  have root : t.root = rootPtr s := valid.holds.around
  rw [firstNode, root]
  by_cases empty : s = .nil
  · subst empty
    rfl
  · rw [if_neg (fun null => empty ((root_ptr_ne valid.holds.focus).mp null))]
    exact outermost_rep (d := .right) enough valid.holds.focus empty

end Valid

/-- In the tree that any history of insertions and removals left, `rb_succ` and `rb_pred` return
the nodes with the next larger and the next smaller key, or NULL if there is none. They undo each
other, and a walk with `rb_succ` from the leftmost node meets every node once, with increasing
keys. -/
theorem rb_neighbours {t : RbTree} {nodes : Finset NodePtr} (reach : TreeReachable t nodes)
    (turns : Nat) (enough : nodes.card ≤ turns) :
    (∀ n ∈ nodes, ∃ q, rbSucc turns t n = .ok q ∧ Nearest .right t nodes n q) ∧
    (∀ n ∈ nodes, ∃ q, rbPred turns t n = .ok q ∧ Nearest .left t nodes n q) ∧
    (∀ n ∈ nodes, ∀ q, rbSucc turns t n = .ok q → q ≠ .null → rbPred turns t q = .ok n) ∧
    ∃ first order, firstNode turns t = .ok first ∧ succWalk turns t turns first = .ok order ∧
      order.toFinset = nodes ∧
      order.Pairwise (fun p q => (t.nodes p).key < (t.nodes q).key) := by
  obtain ⟨s, valid, rfl⟩ := reach.valid
  rw [valid.card] at enough
  have nearest : ∀ d, ∀ n ∈ s.inorder.toFinset, ∃ q, neighbour d turns t n = .ok q ∧
      Nearest d t s.inorder.toFinset n q := by
    intro d n member
    rw [mem_toFinset, ← (s.along_perm d).mem_iff] at member
    obtain ⟨behind, beyond, split⟩ := append_of_mem member
    have order := valid.along_ordered d
    have found := nearest_of_order (split ▸ order)
    rw [← split, toFinset_eq_of_perm _ _ (s.along_perm d)] at found
    exact ⟨_, (valid.neighbour_next enough split).2, found⟩
  refine ⟨nearest .right, nearest .left, fun n member q succ some => ?_, _, _,
    valid.first_node enough, valid.succ_walk enough turns enough (nil_append _).symm, rfl,
    valid.sorted⟩
  obtain ⟨behind, beyond, split⟩ := append_of_mem (mem_toFinset.mp member)
  have next : rbSucc turns t n = .ok (beyond.headD .null) :=
    (valid.neighbour_next (d := .right) enough split).2
  rw [succ] at next
  cases beyond with
  | nil =>
    cases next
    exact absurd rfl some
  | cons p rest =>
    cases next
    have back : s.along .left = rest.reverse ++ p :: (n :: behind.reverse) := by
      simp [along, split]
    exact (valid.neighbour_next enough back).2

/-- A tree of two nodes, with addresses 8 and 16 and keys 5 and 9. -/
theorem nine_follows_five :
    ∃ t, TreeReachable t {⟨16#64, by decide⟩, ⟨8#64, by decide⟩} ∧
      (t.nodes ⟨8#64, by decide⟩).key = 5 ∧ (t.nodes ⟨16#64, by decide⟩).key = 9 ∧
      rbSucc 2 t ⟨8#64, by decide⟩ = .ok ⟨16#64, by decide⟩ := by
  let start : RbTree := ⟨fun p => ⟨if p.addr = 8#64 then 5 else 9, 0#64, .null, .null⟩, .null⟩
  have empty : TreeReachable start ∅ := .empty rfl
  obtain ⟨one, reach, keys⟩ := reachable_add (n := ⟨8#64, by decide⟩) empty (by decide) (by simp)
  obtain ⟨t, reach', keys'⟩ := reachable_add (n := ⟨16#64, by decide⟩) reach (by decide)
    (by simp [keys, start])
  have five : (t.nodes ⟨8#64, by decide⟩).key = 5 := by rw [keys', keys]; rfl
  have nine : (t.nodes ⟨16#64, by decide⟩).key = 9 := by rw [keys', keys]; rfl
  have order : KeyBeyond .right t ⟨8#64, by decide⟩ ⟨16#64, by decide⟩ := by
    rw [KeyBeyond, five, nine]
    decide
  obtain ⟨q, returns, nearest⟩ := (rb_neighbours reach' 2 (by decide)).1 ⟨8#64, by decide⟩ (by simp)
  refine ⟨t, by simpa using reach', five, nine, ?_⟩
  rcases nearest with ⟨-, none⟩ | ⟨member, ahead, -⟩
  · exact absurd order (none _ (by simp))
  · simp only [Finset.mem_insert, Finset.notMem_empty, or_false] at member
    rcases member with rfl | rfl
    · exact returns
    · exact absurd ahead ahead.asymm

end Mftt
