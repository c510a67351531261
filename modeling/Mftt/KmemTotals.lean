import Mathlib.Data.List.Perm.Basic
import Mftt.KmemRemoval

/-!
# Reading the free blocks

`kmalloc` and `kfree` read the tree of lists in three ways: they validate the tree, add
up the sizes of all free blocks, and search the smallest size that is large enough.
-/

namespace Mftt

open ByteMemory RedBlack ColorTree

variable {m m' : Bytes} {pool b size turns : Nat} {free : List Nat} {s : ColorTree NodePtr}
  {rest : Nat → List Nat}

section

variable (rep : FreeRep m pool free s rest)
include rep

theorem FreeRep.block (member : b ∈ free) :
    ∃ first prev next, ListedBlock m pool (blockField m b .size) first prev next b := by
  obtain ⟨h, head, inside⟩ := rep.mem_free.mp member
  obtain ⟨size, list⟩ := rep.lists h head
  obtain ⟨first, prev, next, block⟩ := list.block (List.mem_cons.mpr inside)
  rw [block.sized]
  exact ⟨first, prev, next, block⟩

theorem FreeRep.perm {free' : List Nat} (perm : free.Perm free') : FreeRep m pool free' s rest where
  spread := rep.spread.mono fun _ member => perm.mem_iff.mpr member
  distinct := perm.nodup_iff.mp rep.distinct
  tree := rep.tree
  nodes := rep.nodes
  lists := rep.lists
  members := rep.members.trans perm
  even b member := rep.even b (perm.mem_iff.mpr member)

theorem FreeRep.root : (freeTree m pool).root = rootPtr s :=
  rep.tree.holds.around

/-- The tree is empty only if there is no free block. -/
theorem FreeRep.nonempty (some : free ≠ []) : s ≠ .nil := by
  rintro rfl
  exact some (List.nil_perm.mp rep.members)

end

theorem empty_free_rep (valid : pool ≠ 0) (root : poolField m pool .freeTree = 0) :
    FreeRep m pool [] .nil (fun _ => []) where
  spread := ⟨valid, by simp, by simp, by simp, by simp⟩
  distinct := List.nodup_nil
  tree := by
    refine ⟨⟨trivial, ?_, List.nodup_nil⟩, ⟨0, .nil⟩, .nil⟩
    simp only [freeTree, root]
    rfl
  nodes := by simp [inorder]
  lists := by simp [heads, inorder]
  members := .nil
  even := by simp

theorem validate_tree (rep : FreeRep m pool free s rest) (some : free ≠ [])
    (enough : free.length ≤ turns) : validateTree turns m pool = .ok () := by
  have count := rep.length_le
  rw [validateTree, rep.root]
  exact rb_validate_at turns (by omega) rep.tree.holds (rep.nonempty some)

/-- It follows a NULL pointer if there is none. -/
theorem validate_tree_empty (rep : FreeRep m pool [] s rest) (enough : 0 < turns) :
    validateTree turns m pool = .error .nullPointer := by
  have empty : s = .nil := by
    cases s with
    | nil => rfl
    | node c l p r =>
      have count := rep.length_le
      simp [inorder] at count
  obtain ⟨turns, rfl⟩ : ∃ k, turns = k + 1 := ⟨turns - 1, by omega⟩
  rw [validateTree, rep.root, empty]
  rfl

section Totals

/-- The size of some blocks in all. -/
def blocksTotal (m : Bytes) (bs : List Nat) : Nat := (bs.map fun b => blockField m b .size).sum

@[simp] theorem blocks_total_cons (m : Bytes) (b : Nat) (bs : List Nat) :
    blocksTotal m (b :: bs) = blockField m b .size + blocksTotal m bs := by
  simp [blocksTotal]

theorem blocks_total_append (m : Bytes) (bs cs : List Nat) :
    blocksTotal m (bs ++ cs) = blocksTotal m bs + blocksTotal m cs := by
  simp [blocksTotal]

theorem blocks_total_perm {bs cs : List Nat} (perm : bs.Perm cs) :
    blocksTotal m bs = blocksTotal m cs :=
  (perm.map _).sum_nat

/-- The loop over a list adds up the sizes of its blocks. -/
theorem list_totalsize {first : Bool} {prev sz : Nat} {bs : List Nat}
    (list : FreeList m pool size first prev (b :: bs)) (valid : ∀ x ∈ b :: bs, x ≠ 0)
    (enough : bs.length < turns) (bound : sz + blocksTotal m bs < 2 ^ 64) :
    listTotalsize turns m b size sz = .ok (sz + blocksTotal m bs) := by
  induction bs generalizing b first prev sz turns with
  | nil =>
    obtain ⟨turns, rfl⟩ : ∃ k, turns = k + 1 := ⟨turns - 1, by omega⟩
    have type : blockField m b .type = freeType first 0 := list.1.type
    have here := valid b (by simp)
    simp only [listTotalsize, read_block_of_ne here, bind_ok, type, has_next]
    rfl
  | cons n bs ih =>
    obtain ⟨turns, rfl⟩ : ∃ k, turns = k + 1 := ⟨turns - 1, by omega⟩
    obtain ⟨block, behind⟩ := list
    have type : blockField m b .type = freeType first n := block.type
    have following : blockField m b .nextFree = n := block.nextFree
    have here := valid b (by simp)
    have next := valid n (by simp)
    have sized : blockField m n .size = size := behind.1.sized
    simp only [List.length_cons] at enough
    simp only [blocks_total_cons] at bound ⊢
    have fits : (sz + size) % 2 ^ 64 = sz + size := Nat.mod_eq_of_lt (by omega)
    have tail : listTotalsize turns m n size (sz + size) = .ok (sz + size + blocksTotal m bs) :=
      ih behind (fun x member => valid x (List.mem_cons_of_mem b member)) (by omega) (by omega)
    simp only [listTotalsize, read_block_of_ne here, read_block_of_ne next, bind_ok, type, has_next,
      ne_eq, next, not_false_eq_true, decide_true, if_true, following, sized, not_true_eq_false,
      if_false, fits, tail, Nat.add_assoc]

theorem heads_node (c : Color) (l r : ColorTree NodePtr) (p : NodePtr) :
    listed (heads (.node c l p r)) rest =
      listed (heads l) rest ++ (blockOf p :: rest (blockOf p) ++ listed (heads r) rest) := by
  simp [listed, heads, inorder]

/-- `get_tree_totalsize` adds up the sizes of all blocks of a tree of lists.

Proof: induction on the tree. -/
theorem tree_totalsize {parent : NodePtr} (rep : Rep (freeTree m pool) parent s)
    (lists : ∀ p ∈ s.inorder, FreeList m pool (nodeAt m p).key true 0
      (blockOf p :: rest (blockOf p)))
    (valid : ∀ x ∈ listed (heads s) rest, x ≠ 0)
    (enough : (listed (heads s) rest).length < turns)
    (bound : blocksTotal m (listed (heads s) rest) < 2 ^ 64) :
    getTreeTotalsize turns m (rootPtr s) = .ok (blocksTotal m (listed (heads s) rest)) := by
  induction s generalizing parent turns with
  | nil =>
    obtain ⟨turns, rfl⟩ : ∃ k, turns = k + 1 := ⟨turns - 1, by omega⟩
    rfl
  | node c l p r left right =>
    obtain ⟨turns, rfl⟩ : ∃ k, turns = k + 1 := ⟨turns - 1, by omega⟩
    obtain ⟨some, stores, repLeft, repRight⟩ := rep
    have goLeft : (nodeAt m p).L = rootPtr l := stores.towards
    have goRight : (nodeAt m p).R = rootPtr r := stores.away
    rw [heads_node] at valid enough bound ⊢
    simp only [blocks_total_append, blocks_total_cons, List.length_append,
      List.length_cons] at enough bound ⊢
    have mine := lists p (by simp [inorder])
    have sized : blockField m (blockOf p) .size = (nodeAt m p).key := mine.1.sized
    have own : listTotalsize turns m (blockOf p) (nodeAt m p).key (nodeAt m p).key =
        .ok ((nodeAt m p).key + blocksTotal m (rest (blockOf p))) :=
      list_totalsize mine (fun x member => valid x (by simp only [List.mem_append]; tauto))
        (by omega) (by omega)
    have goodLeft : getTreeTotalsize turns m (rootPtr l) = _ :=
      left repLeft (fun q member => lists q (by simp [inorder, member]))
        (fun x member => valid x (by simp [member])) (by omega) (by omega)
    have goodRight : getTreeTotalsize turns m (rootPtr r) = _ :=
      right repRight (fun q member => lists q (by simp [inorder, member]))
        (fun x member => valid x (by simp [member])) (by omega) (by omega)
    have child : ∀ {a : ColorTree NodePtr} {total : Nat}, Rep (freeTree m pool) p a →
        (a = .nil → total = 0) → getTreeTotalsize turns m (rootPtr a) = .ok total →
        (if rootPtr a ≠ .null then getTreeTotalsize turns m (rootPtr a) else pure 0) = .ok total := by
      intro a total held empty returns
      by_cases none : a = .nil
      · rw [if_neg (not_not.mpr ((root_ptr_ne held).mpr none)), empty none]
        rfl
      · rw [if_pos (fun zero => none ((root_ptr_ne held).mp zero)), returns]
    have fromLeft := child repLeft (by rintro rfl; rfl) goodLeft
    have fromRight := child repRight (by rintro rfl; rfl) goodRight
    change getTreeTotalsize (turns + 1) m p = _
    rw [getTreeTotalsize, if_neg some]
    dsimp only
    rw [own, bind_ok, goLeft, goRight, fromLeft, bind_ok, fromRight, bind_ok]
    congr 1
    omega

/-- `get_tree_totalsize` on a pool. -/
theorem total_size (rep : FreeRep m pool free s rest) (enough : free.length < turns)
    (bound : blocksTotal m free < 2 ^ 64) :
    getTreeTotalsize turns m (freeTree m pool).root = .ok (blocksTotal m free) := by
  have total := blocks_total_perm (m := m) rep.members
  rw [rep.root, ← total]
  apply tree_totalsize rep.tree.holds.focus
  · intro p member
    obtain ⟨head, -, same⟩ := rep.node_block member
    obtain ⟨size, list⟩ := rep.lists _ head
    have key := list.1.key
    rw [← same] at key
    rwa [key]
  · exact fun x member => rep.spread.ne_zero (rep.members.mem_iff.mp member)
  · rwa [rep.members.length_eq]
  · rwa [total]

/-- The check of the free space against the tree. -/
theorem check_totalsize (rep : FreeRep m pool free s rest) (enough : free.length < turns)
    (bound : blocksTotal m free < 2 ^ 64) (counter : poolField m pool .free = blocksTotal m free) :
    checkTotalsize turns m pool = .ok () := by
  simp only [checkTotalsize, total_size rep enough bound, bind_ok, counter, assert_true]

end Totals

section Search

/-- The result of the search in one pool: a smallest one of the free blocks that are
large enough, or nothing if all are too small. -/
theorem search_free (turns need : Nat) (rep : FreeRep m pool free s rest)
    (enough : free.length < turns) :
    ∃ node, rbSearchUpper turns (freeTree m pool) (freeTree m pool).root need = .ok node ∧
      (node = .null → ∀ x ∈ free, blockField m x .size < need) ∧
      (node ≠ .null → blockOf node ∈ free ∧ node = nodeOf (blockOf node) ∧
        need ≤ blockField m (blockOf node) .size ∧
        (∀ x ∈ free, need ≤ blockField m x .size →
          blockField m (blockOf node) .size ≤ blockField m x .size) ∧
        ((∀ x ∈ free, need ≤ blockField m x .size) → (nodeAt m node).L = .null)) := by
  have count := rep.length_le
  obtain ⟨node, returns, null, found⟩ := rb_search_upper_spec turns need (by omega) rep.tree
  -- the key of a node is the size of all blocks of its list
  have key : ∀ x ∈ free, ∃ p ∈ s.inorder, (nodeAt m p).key = blockField m x .size := by
    intro x member
    obtain ⟨h, head, inside⟩ := rep.mem_free.mp member
    obtain ⟨size, list⟩ := rep.lists h head
    obtain ⟨_, _, _, block⟩ := list.block (List.mem_cons.mpr inside)
    exact ⟨nodeOf h, (rep.node_mem (rep.head_free head)).mpr head, by rw [list.1.key, block.sized]⟩
  refine ⟨node, returns, fun none x member => ?_, fun some => ?_⟩
  · obtain ⟨p, inside, same⟩ := key x member
    rw [← same]
    exact (null none).2 p inside
  · obtain ⟨known, large, least⟩ := found some
    have member := known.resolve_left some
    obtain ⟨head, inside, same⟩ := rep.node_block member
    obtain ⟨size, list⟩ := rep.lists _ head
    have sized : (nodeAt m node).key = blockField m (blockOf node) .size := by
      rw [list.1.sized, ← list.1.key, ← same]
    refine ⟨inside, same, sized ▸ large, fun x other bigger => ?_, fun all => ?_⟩
    · obtain ⟨p, within, equal⟩ := key x other
      rw [← sized, ← equal]
      exact least p within (by change need ≤ (nodeAt m p).key; rwa [equal])
    · refine left_null_of_least (t := freeTree m pool) (p := node) rep.tree member
        fun q within => least q within ?_
      obtain ⟨headQ, insideQ, sameQ⟩ := rep.node_block within
      obtain ⟨sizeQ, listQ⟩ := rep.lists _ headQ
      have sizedQ : (nodeAt m q).key = blockField m (blockOf q) .size := by
        rw [listQ.1.sized, ← listQ.1.key, ← sameQ]
      change need ≤ (nodeAt m q).key
      rw [sizedQ]
      exact all _ insideQ

end Search

end Mftt
