import Mftt.KmemLists

/-!
# Removing free blocks

A block leaves its pool in one of four ways. The only block of its size is removed
from the tree; the first of several is replaced in the tree by the one behind it; any
other block is unlinked from its list, in the middle or at the end. In each case the
assertions about its neighbours follow from the list.
-/

namespace Mftt

open ByteMemory RedBlack ColorTree

variable {m m' : Bytes} {pool b size turns : Nat} {free : List Nat} {s : ColorTree NodePtr}
  {rest : Nat → List Nat}

variable {first : Bool} {prev : Nat}

variable {next : Nat} {inTree : Prop}

section Checks

theorem has_in_tree (first : Bool) (next : Nat) :
    hasFlag (freeType first next) KMEM_TYPE_IN_TREE = first := by
  unfold freeType
  cases first <;> split <;> decide

theorem has_next (first : Bool) (next : Nat) :
    hasFlag (freeType first next) KMEM_TYPE_HAVE_NEXT = decide (next ≠ 0) := by
  unfold freeType
  by_cases none : next = 0
  · cases first <;> simp only [none] <;> decide
  · cases first <;> simp only [none, ne_eq] <;> decide

/-- The type of a free block has the flag of free blocks. -/
theorem has_free (first : Bool) (next : Nat) :
    hasFlag (freeType first next) KMEM_TYPE_FREE = true := by
  unfold freeType
  cases first <;> split <;> decide

/-- The end of `remove_from_pool`, which clears the links of the block. -/
def clearLinks (m : Bytes) (b : Nat) : Bytes :=
  setBlockField (setBlockField m b .nextFree 0) b .prevFree 0

theorem changed_clear_links (m : Bytes) (b : Nat) : ChangedIn (frontScope [b]) m (clearLinks m b) :=
  (changed_front m (by simp) .nextFree 0 (by decide)).trans
    (changed_front _ (by simp) .prevFree 0 (by decide))

/-- `remove_from_pool` comes down to taking the block out of the tree or the list. -/
theorem remove_begins (valid : b ≠ 0) (poolValid : pool ≠ 0)
    (block : ListedBlock m pool size first prev next b)
    (before : checkPrev m pool b (freeType first next) prev = .ok ())
    (behind : checkNext m pool b (freeType first next) next = .ok ())
    (taken : detach turns m pool b (freeType first next) prev next = .ok m') :
    removeFromPool turns m b = .ok (clearLinks m' b) := by
  simp only [removeFromPool, read_block_of_ne valid, bind_ok, block.cookie,
    block.owner, ne_eq, poolValid, block.prevFree, block.type, before,
    block.nextFree, behind, taken, write_block_of_ne valid]
  rfl

/-- A block in the tree has none before it. -/
theorem check_prev_first : checkPrev m pool b (freeType true next) 0 = .ok () := by
  simp only [checkPrev, has_in_tree, Bool.not_true, Bool.false_eq_true, if_false, assert_true]

/-- Any other block has one before it. -/
theorem check_prev_listed {first' : Bool} {prev' : Nat} (valid : prev ≠ 0)
    (block : ListedBlock m pool size first' prev' b prev) :
    checkPrev m pool b (freeType false next) prev = .ok () := by
  simp only [checkPrev, has_in_tree, Bool.not_false, if_true, assert_true, ne_eq, valid,
    not_false_eq_true, bind_ok, read_block_of_ne valid, block.cookie, block.owner, block.nextFree]

theorem check_next_none : checkNext m pool b (freeType first 0) 0 = .ok () := by
  simp only [checkNext, has_next, ne_eq, not_true_eq_false, decide_false, Bool.false_eq_true,
    if_false, assert_true]

theorem check_next_listed {next' : Nat} (valid : next ≠ 0)
    (block : ListedBlock m pool size false b next' next) :
    checkNext m pool b (freeType first next) next = .ok () := by
  simp only [checkNext, has_next, ne_eq, valid, not_false_eq_true, decide_true, if_true,
    assert_true, bind_ok, read_block_of_ne valid, block.cookie, block.owner, block.prevFree]

end Checks

variable {m₁ : Bytes} {n : Nat}

section FromTree

/-- The fields in front of the nodes that the owner of a block relies on. -/
structure HeaderKept (m m' : Bytes) (x : Nat) : Prop where
  cookie : blockField m' x .cookie = blockField m x .cookie
  sized : blockField m' x .size = blockField m x .size
  owner : blockField m' x .pool = blockField m x .pool

variable {x : Nat} {blocks : Set Nat} {s' : ColorTree NodePtr} {t' : RbTree}

theorem HeaderKept.trans {m'' : Bytes} (first : HeaderKept m m' x) (second : HeaderKept m' m'' x) :
    HeaderKept m m'' x where
  cookie := second.cookie.trans first.cookie
  sized := second.sized.trans first.sized
  owner := second.owner.trans first.owner

theorem KeptBlock.header (kept : KeptBlock m m' x inTree) : HeaderKept m m' x :=
  ⟨kept.front _ (by decide), kept.front _ (by decide), kept.front _ (by decide)⟩

/-- Writing other fields of a block keeps its header. -/
theorem header_set (spread : Spread pool blocks) {y : Nat} (left : x ∈ blocks) (right : y ∈ blocks)
    {f : BlockField} (value : Nat) (other : f ≠ .cookie ∧ f ≠ .size ∧ f ≠ .pool) :
    HeaderKept m (setBlockField m y f value) x := by
  constructor <;> rw [spread.read_set left right, if_neg]
  · exact fun both => other.1 both.2.symm
  · exact fun both => other.2.1 both.2.symm
  · exact fun both => other.2.2 both.2.symm

theorem header_clear_links (spread : Spread pool blocks) (left : x ∈ blocks) (right : b ∈ blocks) :
    HeaderKept m (clearLinks m b) x :=
  (header_set spread left right 0 (by decide)).trans (header_set spread left right 0 (by decide))

/-- What removing a block leaves. -/
structure Removal (m : Bytes) (pool : Nat) (free : List Nat) (b : Nat) (m' : Bytes) : Prop where
  rep : ∃ s rest, FreeRep m' pool (free.erase b) s rest
  header : ∀ x ∈ free, HeaderKept m m' x
  changed : ChangedIn (freeScope pool free) m m'
  node : (nodeAt m (nodeOf b)).L = .null → ∀ x ∈ span (b + 32) 32, m' x = m x

theorem FreeRep.erase_spread (rep : FreeRep m pool free s rest) (b : Nat) :
    Spread pool {x | x ∈ free.erase b} ∧ (free.erase b).Nodup :=
  ⟨rep.spread.mono fun _ member => List.mem_of_mem_erase member, rep.distinct.erase b⟩

/-- Tree nodes and blocks: a permutation of nodes is one of blocks. -/
theorem FreeRep.heads_erase (rep : FreeRep m pool free s rest) (head : b ∈ heads s) :
    (heads s).Perm (b :: (s.inorder.erase (nodeOf b)).map blockOf) := by
  have inside := rep.head_free head
  have node := (rep.node_mem inside).mpr head
  have mapped := (List.perm_cons_erase node).map blockOf
  rwa [List.map_cons, block_of_node (rep.spread.even b inside) (rep.spread.bound b inside)]
    at mapped

/-- Once the others are in order, writes in front of the node of the removed block do no
harm. -/
theorem Removal.finish {rest' : Nat → List Nat} (rep : FreeRep m pool free s rest)
    (inside : b ∈ free) (rep₁ : FreeRep m₁ pool (free.erase b) s' rest')
    (header : ∀ x ∈ free, HeaderKept m m₁ x) (changed : ChangedIn (freeScope pool free) m m₁)
    (node : (nodeAt m (nodeOf b)).L = .null → ∀ x ∈ span (b + 32) 32, m₁ x = m x)
    (ends : ChangedIn (frontScope [b]) m₁ m') (header' : ∀ x ∈ free, HeaderKept m₁ m' x) :
    Removal m pool free b m' where
  rep := by
    refine ⟨s', rest', rep₁.congr (fun x member => ?_) ?_⟩
    · obtain ⟨other, known⟩ := rep.distinct.mem_erase_iff.mp member
      exact rep.spread.same_front known (by simpa using inside) (by simpa using other) ends
    · exact rep.spread.pool_front (by simpa using inside) ends _
  header x member := (header x member).trans (header' x member)
  changed := changed.trans (ends.mono (free_scope_subset (by simpa using inside)))
  node none x within :=
    (rep.spread.bytes_front inside (by simpa using inside) ends x within).trans (node none x within)

/-- A function on the tree without a result. -/
theorem on_tree_step {g : RbTree → Except Fault RbTree} {touched : Set NodePtr}
    (spread : Spread pool blocks) (returns : g (freeTree m pool) = .ok t')
    (keeps : Keeps (freeTree m pool) t' touched)
    (inside : ∀ p ∈ touched, ∃ b ∈ blocks, p = nodeOf b) :
    ∃ m', onTree m pool (fun t => do
      let t ← g t
      pure ((), t)) = .ok ((), m') ∧ TreeWritten m pool blocks t' m' := by
  apply on_tree_spec spread _ keeps inside
  rw [returns]
  rfl

theorem FreeRep.nodes_known (rep : FreeRep m pool free s rest) :
    ∀ p ∈ {p | p ∈ s.inorder}, ∃ x ∈ {x | x ∈ free}, p = nodeOf x := by
  intro p member
  obtain ⟨-, known, same⟩ := rep.node_block member
  exact ⟨blockOf p, known, same⟩

/-- The free blocks once the tree has lost the only block of its size. -/
theorem FreeRep.without_single (rep : FreeRep m pool free s rest) (head : b ∈ heads s)
    (alone : rest b = []) (written : TreeWritten m pool {x | x ∈ free} t' m₁)
    (removed : Removed (freeTree m pool) s (nodeOf b) t' s') :
    FreeRep m₁ pool (free.erase b) s' rest := by
  obtain ⟨valid', keeps, order, -⟩ := removed
  have fewer : ∀ p ∈ s'.inorder, p ∈ s.inorder := by
    rw [order]
    exact fun p => List.mem_of_mem_erase
  have kept : ∀ x ∈ free, KeptBlock m m₁ x (x ∈ heads s) := fun x member =>
    (written.kept rep.spread keeps member).mono (rep.node_mem member).mp
  obtain ⟨spread', distinct'⟩ := rep.erase_spread b
  constructor
  · exact spread'
  · exact distinct'
  · exact written.valid valid' (fun p member => rep.nodes_known p (fewer p member))
  · exact fun p member => rep.nodes p (fewer p member)
  · intro h member
    have old : h ∈ heads s := by
      obtain ⟨p, inside, rfl⟩ := List.mem_map.mp member
      exact List.mem_map.mpr ⟨p, fewer p inside, rfl⟩
    exact rep.kept_list kept old
  · have all : (listed (b :: (s.inorder.erase (nodeOf b)).map blockOf) rest).Perm free :=
      (listed_perm (rep.heads_erase head)).symm.trans rep.members
    rw [listed_cons, alone, ← order] at all
    exact (List.cons_perm_iff_perm_erase.mp all).2
  · intro x member
    have old := List.mem_of_mem_erase member
    exact (kept x old).even (rep.even x old)

/-- The only block of its size is removed from the tree. -/
theorem remove_single (rep : FreeRep m pool free s rest) (enough : free.length + 2 ≤ turns)
    (head : b ∈ heads s) (alone : rest b = []) (positive : blockField m b .size ≠ 0) :
    ∃ m', removeFromPool turns m b = .ok m' ∧ Removal m pool free b m' := by
  have inside := rep.head_free head
  have valid := rep.spread.ne_zero inside
  obtain ⟨size, block, -⟩ := rep.lists b head
  rw [alone] at block
  have key : (nodeAt m (nodeOf b)).key ≠ 0 := by
    rw [block.key, ← block.sized]
    exact positive
  have count := rep.length_le
  obtain ⟨t', s', removes, removed⟩ := rb_remove_spec turns (by omega) rep.tree
    ((rep.node_mem inside).mpr head)
  obtain ⟨m₁, onto, written⟩ := on_tree_step (g := (rbRemove turns · (nodeOf b))) rep.spread
    removes removed.keeps rep.nodes_known
  have taken : detach turns m pool b (freeType true 0) 0 0 = .ok (setBlockField m₁ b .type
      (clearFlag (blockField m₁ b .type) KMEM_TYPE_IN_TREE)) := by
    simp only [detach, has_in_tree, if_true, detachFromTree, key, ne_eq, not_false_eq_true,
      assert_true, bind_ok, has_next, not_true_eq_false, decide_false, Bool.false_eq_true, if_false,
      onto, read_block_of_ne valid, write_block_of_ne valid]
  refine ⟨_, remove_begins valid rep.spread.valid block check_prev_first check_next_none taken, ?_⟩
  apply Removal.finish rep inside (rep.without_single head alone written removed)
  · exact fun x member => (written.kept rep.spread removed.keeps member).header
  · exact written.changed.mono (tree_scope_subset pool free)
  · exact fun none => written.same b inside (removed.bare none)
  · exact (changed_front _ (by simp) _ _ (by decide)).trans (changed_clear_links _ b)
  · exact fun x member => (header_set rep.spread member inside _ (by decide)).trans
      (header_clear_links rep.spread member inside)

section Promote

variable {bs : List Nat}

/-- The block behind the first one becomes the first one. -/
def promote (m : Bytes) (n : Nat) : Bytes :=
  let m := setBlockField m n .prevFree 0
  setBlockField m n .type (blockField m n .type ||| KMEM_TYPE_IN_TREE)

theorem changed_promote (m : Bytes) (n : Nat) : ChangedIn (frontScope [n]) m (promote m n) :=
  (changed_front m (by simp) .prevFree 0 (by decide)).trans
    (changed_front _ (by simp) .type _ (by decide))

theorem header_promote (spread : Spread pool blocks) (left : x ∈ blocks) (right : n ∈ blocks) :
    HeaderKept m (promote m n) x :=
  (header_set spread left right _ (by decide)).trans (header_set spread left right _ (by decide))

theorem free_type_promote (next : Nat) :
    freeType false next ||| KMEM_TYPE_IN_TREE = freeType true next := by
  unfold freeType
  split <;> decide

/-- The header of a promoted block, whose node has been linked already. -/
theorem ListedBlock.promote (block : ListedBlock m pool size false prev next n)
    (kept : KeptBlock m m₁ n inTree) (even : n % 2 = 0) (bound : n + 64 ≤ 2 ^ 64) :
    ListedBlock (promote m₁ n) pool size true 0 next n := by
  have key := kept.key.trans block.key
  have front : ∀ f : BlockField, f.offset + f.width ≤ 32 → blockField m₁ n f = blockField m n f :=
    kept.front
  constructor
  case bare => simp
  case key =>
    simp only [node_at_fields even bound] at key
    simp only [Mftt.promote, node_at_fields even bound, block_set_same, reduceCtorEq, if_false, key]
  all_goals simp only [Mftt.promote, block_set_same, reduceCtorEq, if_false, if_true]
  · exact (front _ (by decide)).trans block.cookie
  · rw [front _ (by decide), block.type, free_type_promote, free_type_fits]
  · exact (front _ (by decide)).trans block.sized
  · exact (front _ (by decide)).trans block.owner
  · rfl
  · exact (front _ (by decide)).trans block.nextFree

/-- The free blocks once the second block of a list has taken the place of the first. -/
theorem FreeRep.without_first (rep : FreeRep m pool free s rest) (head : b ∈ heads s)
    (behind : rest b = n :: bs) (written : TreeWritten m pool {x | x ∈ free} t' m₁)
    (valid' : RbValid t' s') (order : s'.inorder.Perm (nodeOf n :: s.inorder.erase (nodeOf b)))
    (keeps : Keeps (freeTree m pool) t' ({nodeOf n} ∪ {p | p ∈ s.inorder})) :
    FreeRep (promote m₁ n) pool (free.erase b) s' (Function.update rest n bs) := by
  have listN : n ∈ rest b := by simp [behind]
  have memN := rep.rest_free head listN
  have evenN := rep.spread.even n memN
  have boundN := rep.spread.bound n memN
  have distinct := rep.list_nodup head
  rw [behind] at distinct
  simp only [List.nodup_cons] at distinct
  have absentN := rep.rest_not_head head listN
  have old : ∀ p ∈ s.inorder.erase (nodeOf b), p ∈ s.inorder := fun p => List.mem_of_mem_erase
  have known : ∀ p ∈ s'.inorder, ∃ x ∈ {x | x ∈ free}, p = nodeOf x := by
    intro p member
    rcases List.mem_cons.mp (order.mem_iff.mp member) with rfl | inside
    · exact ⟨n, memN, rfl⟩
    · exact rep.nodes_known p (old p inside)
  have changed := changed_promote m₁ n
  have only : ∀ x ∈ [n], x ∈ {x | x ∈ free} := by simpa using memN
  -- all blocks but the promoted one keep their list data
  have kept : ∀ x ∈ free, x ≠ n → KeptBlock m (promote m₁ n) x (x ∈ heads s) := by
    intro x member other
    have first : KeptBlock m m₁ x (x ∈ heads s) := by
      apply (written.kept rep.spread keeps member).mono
      rintro (same | inside)
      · exact absurd (rep.spread.node_inj member memN same) other
      · exact (rep.node_mem member).mp inside
    have same := rep.spread.same_front member only (by simpa using other) changed
    exact first.trans (same.kept (rep.spread.even x member) (rep.spread.bound x member) _)
  have heads' : (heads s').Perm (n :: (s.inorder.erase (nodeOf b)).map blockOf) := by
    have mapped := order.map blockOf
    rwa [List.map_cons, block_of_node evenN boundN] at mapped
  have split := rep.heads_erase head
  have absent : n ∉ (s.inorder.erase (nodeOf b)).map blockOf := fun inside =>
    absentN (split.mem_iff.mpr (List.mem_cons_of_mem b inside))
  obtain ⟨spread', distinct'⟩ := rep.erase_spread b
  constructor
  · exact spread'
  · exact distinct'
  · apply (written.valid valid' known).congr
    · simp only [freeTree, rep.spread.pool_front only changed]
    · intro p member
      obtain ⟨x, inside, rfl⟩ := known p member
      exact rep.spread.node_front inside only changed
  · intro p member
    obtain ⟨x, inside, rfl⟩ := known p member
    rw [block_of_node (rep.spread.even x inside) (rep.spread.bound x inside)]
  · intro h member
    rcases List.mem_cons.mp (heads'.mem_iff.mp member) with rfl | inside
    · obtain ⟨size, list⟩ := rep.lists b head
      rw [behind] at list
      rw [Function.update_self]
      have promoted := list.2.1.promote (written.kept rep.spread keeps memN) evenN boundN
      refine ⟨size, promoted, list.2.2.kept_rest fun x within => ?_⟩
      have there : x ∈ rest b := by simp [behind, within]
      refine (kept x (rep.rest_free head there) ?_).mono (rep.rest_not_head head there)
      rintro rfl
      exact distinct.2.1 within
    · have head' : h ∈ heads s := split.mem_iff.mpr (List.mem_cons_of_mem b inside)
      have other : h ≠ n := by
        rintro rfl
        exact absentN head'
      rw [Function.update_of_ne other]
      refine rep.kept_one head' fun x within => kept x ?_ ?_
      · exact rep.mem_free.mpr ⟨h, head', List.mem_cons.mp within⟩
      · rintro rfl
        have unique := rep.head_unique head' head (List.mem_cons.mp within) (.inr listN)
        have heads_distinct := split.nodup_iff.mp rep.heads_nodup
        exact (List.nodup_cons.mp heads_distinct).1 (unique ▸ inside)
  · refine (listed_perm heads').trans ?_
    rw [listed_cons, Function.update_self, listed_update_absent absent]
    have all : (listed (b :: (s.inorder.erase (nodeOf b)).map blockOf) rest).Perm free :=
      (listed_perm split).symm.trans rep.members
    rw [listed_cons, behind] at all
    exact (List.cons_perm_iff_perm_erase.mp all).2
  · intro x member
    have here := List.mem_of_mem_erase member
    exact ((written.kept rep.spread keeps here).even (rep.even x here)).congr
      (rep.spread.field_front here only changed .L (by decide))

/-- Replacing one of several different values. -/
theorem map_replace_perm {α : Type} [DecidableEq α] {xs : List α} {x y : α} (distinct : xs.Nodup)
    (member : x ∈ xs) : (xs.map (fun z => if z = x then y else z)).Perm (y :: xs.erase x) := by
  have mapped := (List.perm_cons_erase member).map (fun z => if z = x then y else z)
  have others : (xs.erase x).map (fun z => if z = x then y else z) = xs.erase x := by
    conv_rhs => rw [← List.map_id (xs.erase x)]
    refine List.map_congr_left (fun z inside => if_neg ?_)
    exact (distinct.mem_erase_iff.mp inside).1
  rwa [List.map_cons, if_pos rfl, others] at mapped

/-- The first of several blocks is replaced in the tree by the second. -/
theorem remove_first (rep : FreeRep m pool free s rest) (head : b ∈ heads s)
    (behind : rest b = n :: bs) (positive : blockField m b .size ≠ 0) :
    ∃ m', removeFromPool turns m b = .ok m' ∧ Removal m pool free b m' := by
  have inside := rep.head_free head
  have valid := rep.spread.ne_zero inside
  have listN : n ∈ rest b := by simp [behind]
  have memN := rep.rest_free head listN
  have validN := rep.spread.ne_zero memN
  obtain ⟨size, block, next, -⟩ : ∃ size, FreeList m pool size true 0 (b :: n :: bs) := by
    rw [← behind]
    exact rep.lists b head
  have key : (nodeAt m (nodeOf b)).key ≠ 0 := by
    rw [block.key, ← block.sized]
    exact positive
  have fresh : nodeOf n ∉ s.inorder := fun member =>
    rep.rest_not_head head listN ((rep.node_mem memN).mp member)
  have node := (rep.node_mem inside).mpr head
  obtain ⟨t', s', replaces, valid', order, keeps, untouched⟩ := rb_replace_spec rep.tree node
    (rep.spread.node_ne_null memN) fresh (next.bare rfl) (block.key.trans next.key.symm)
  have touched : ∀ p ∈ ({nodeOf n} ∪ {p | p ∈ s.inorder} : Set NodePtr),
      ∃ x ∈ {x | x ∈ free}, p = nodeOf x := by
    rintro p (rfl | old)
    · exact ⟨n, memN, rfl⟩
    · exact rep.nodes_known p old
  obtain ⟨m₁, onto, written⟩ := on_tree_step (g := (rbReplace · (nodeOf b) (nodeOf n))) rep.spread
    replaces keeps touched
  have perm : s'.inorder.Perm (nodeOf n :: s.inorder.erase (nodeOf b)) := by
    rw [order]
    exact map_replace_perm (by simpa [TreePath.values] using rep.tree.holds.distinct) node
  have taken : detach turns m pool b (freeType true n) 0 n = .ok (setBlockField (promote m₁ n) b
      .type (clearFlag (blockField (promote m₁ n) b .type)
        (KMEM_TYPE_HAVE_NEXT ||| KMEM_TYPE_IN_TREE))) := by
    simp only [detach, has_in_tree, detachFromTree, key, ne_eq, has_next, validN, onto,
      read_block_of_ne valid,
      read_block_of_ne validN, write_block_of_ne valid, write_block_of_ne validN]
    rfl
  refine ⟨_, remove_begins valid rep.spread.valid block check_prev_first
    (check_next_listed validN next) taken, ?_⟩
  apply Removal.finish rep inside (rep.without_first head behind written valid' perm keeps)
  · exact fun x member => (written.kept rep.spread keeps member).header.trans
      (header_promote rep.spread member memN)
  · exact (written.changed.mono (tree_scope_subset pool free)).trans
      ((changed_promote m₁ n).mono (free_scope_subset (by simpa using memN)))
  · exact fun _ x within => (rep.spread.bytes_front inside (by simpa using memN)
      (changed_promote m₁ n) x within).trans (written.same b inside untouched x within)
  · exact (changed_front _ (by simp) _ _ (by decide)).trans (changed_clear_links _ b)
  · exact fun x member => (header_set rep.spread member inside _ (by decide)).trans
      (header_clear_links rep.spread member inside)

end Promote

end FromTree

section FromList

variable {p : Nat} {pre post : List Nat}

theorem head_of_append (pre : List Nat) (p : Nat) (post post' : List Nat) :
    (pre ++ p :: post).headD 0 = (pre ++ p :: post').headD 0 := by
  cases pre <;> rfl

/-- The neighbours of a block in the middle of a list. -/
theorem FreeList.around (list : FreeList m pool size first prev (pre ++ p :: b :: post)) :
    ∃ first' prev', ListedBlock m pool size first' prev' b p ∧
      ListedBlock m pool size false p (post.headD 0) b ∧ FreeList m pool size false b post ∧
      ∀ m', (∀ x ∈ pre, SameBlock m m' x ∧ x % 2 = 0 ∧ x + 64 ≤ 2 ^ 64) →
        ListedBlock m' pool size first' prev' (post.headD 0) p →
        FreeList m' pool size false p post →
        FreeList m' pool size first prev (pre ++ p :: post) := by
  induction pre generalizing first prev with
  | nil => exact ⟨first, prev, list.1, list.2.1, list.2.2, fun m' _ block rest => ⟨block, rest⟩⟩
  | cons x pre ih =>
    simp only [List.cons_append] at list ⊢
    obtain ⟨block, list⟩ := list
    obtain ⟨first', prev', before, here, behind, rebuild⟩ := ih list
    refine ⟨first', prev', before, here, behind, fun m' same blockP rest => ⟨?_, ?_⟩⟩
    · obtain ⟨mine, even, bound⟩ := same x (List.mem_cons_self ..)
      rw [← head_of_append pre p (b :: post) post]
      exact block.congr mine even bound
    · exact rebuild m' (fun y member => same y (List.mem_cons_of_mem x member)) blockP rest

/-- What unlinking a block from a list does before the block itself is written. -/
structure Unlinked (m : Bytes) (pool size : Nat) (free : List Nat) (first : Bool)
    (prev p b : Nat) (post : List Nat) (m₁ m' : Bytes) : Prop where
  before : ListedBlock m₁ pool size first prev (post.headD 0) p
  behind : FreeList m₁ pool size false p post
  changed : ChangedIn (frontScope (p :: post)) m m₁
  header : ∀ x ∈ free, HeaderKept m m₁ x
  ends : ChangedIn (frontScope [b]) m₁ m'
  header' : ∀ x ∈ free, HeaderKept m₁ m' x

theorem free_type_clear (first : Bool) (some : next ≠ 0) :
    clearFlag (freeType first next) KMEM_TYPE_HAVE_NEXT = freeType first 0 := by
  simp only [freeType, some]
  cases first <;> decide

theorem unlink_last (turns : Nat) (spread : Spread pool {x | x ∈ free}) (memP : p ∈ free)
    (memB : b ∈ free)
    (before : ListedBlock m pool size first prev b p) :
    ∃ m₁ m', detach turns m pool b (freeType false 0) p 0 = .ok m' ∧
      Unlinked m pool size free first prev p b [] m₁ m' := by
  have validP := spread.ne_zero memP
  have validB := spread.ne_zero memB
  have type : blockField (setBlockField m p .nextFree 0) p .type = freeType first b := by
    rw [block_set_same, if_neg (by decide), before.type]
  have taken : detach turns m pool b (freeType false 0) p 0 = .ok (setBlockField
      (setBlockField m p .nextFree 0) p .type (freeType first 0)) := by
    simp only [detach, has_in_tree, Bool.false_eq_true, if_false, detachFromList, has_next, ne_eq,
      not_true_eq_false, decide_false, write_block_of_ne validP, bind_ok, read_block_of_ne validP,
      type, free_type_clear first validB]
  have changed : ChangedIn (frontScope [p]) m (setBlockField
      (setBlockField m p .nextFree 0) p .type (freeType first 0)) :=
    (changed_front m (by simp) .nextFree 0 (by decide)).trans
      (changed_front _ (by simp) .type _ (by decide))
  have only : ∀ x ∈ [p], x ∈ {x | x ∈ free} := by simpa using memP
  refine ⟨_, _, taken, ?_, trivial, changed, ?_, ChangedIn.refl _ _, fun x _ => ⟨rfl, rfl, rfl⟩⟩
  · constructor
    case key => rw [spread.node_front memP only changed, before.key]
    case bare =>
      intro notFirst d
      rw [spread.node_front memP only changed, before.bare notFirst]
    all_goals simp only [block_set_same, reduceCtorEq, if_false, before.cookie,
      before.sized, before.owner, before.prevFree]
    · exact free_type_fits first 0
    · rfl
  · exact fun x member => (header_set spread member memP 0 (by decide)).trans
      (header_set spread member memP _ (by decide))

/-- A block between two others is unlinked. -/
theorem unlink_middle (turns : Nat) (spread : Spread pool {x | x ∈ free}) (memP : p ∈ free)
    (memB : b ∈ free)
    (memN : ∀ x ∈ n :: post, x ∈ free) (distinct : (p :: b :: n :: post).Nodup)
    (before : ListedBlock m pool size first prev b p)
    (behind : FreeList m pool size false b (n :: post)) :
    ∃ m₁ m', detach turns m pool b (freeType false n) p n = .ok m' ∧
      Unlinked m pool size free first prev p b (n :: post) m₁ m' := by
  have inP : p ∈ {x | x ∈ free} := memP
  have inN : n ∈ {x | x ∈ free} := memN n (List.mem_cons_self ..)
  have validP := spread.ne_zero memP
  have validB := spread.ne_zero memB
  have validN := spread.ne_zero inN
  simp only [List.nodup_cons, List.mem_cons, not_or] at distinct
  obtain ⟨⟨pb, pn, pPost⟩, ⟨bn, -⟩, nPost, -⟩ := distinct
  have np : n ≠ p := Ne.symm pn
  have changed : ChangedIn (frontScope [p, n]) m
      (setBlockField (setBlockField m p .nextFree n) n .prevFree p) :=
    (changed_front m (by simp) .nextFree n (by decide)).trans
      (changed_front _ (by simp) .prevFree p (by decide))
  have both : ∀ x ∈ [p, n], x ∈ {x | x ∈ free} := by
    simp only [List.forall_mem_cons]
    exact ⟨memP, inN, by simp⟩
  obtain ⟨next, rest⟩ := behind
  have taken : detach turns m pool b (freeType false n) p n = .ok (setBlockField (setBlockField
      (setBlockField m p .nextFree n) n .prevFree p) b .type (clearFlag (blockField (setBlockField
        (setBlockField m p .nextFree n) n .prevFree p) b .type) KMEM_TYPE_HAVE_NEXT)) := by
    simp only [detach, has_in_tree, Bool.false_eq_true, if_false, detachFromList, has_next, ne_eq,
      validN, not_false_eq_true, decide_true, if_true, write_block_of_ne validP,
      write_block_of_ne validN, write_block_of_ne validB, bind_ok, read_block_of_ne validB]
  refine ⟨_, _, taken, ?_, ⟨?_, ?_⟩, ?_, ?_,
    changed_front _ (List.mem_singleton.mpr rfl) .type _ (by decide),
    fun x member => header_set spread member memB _ (by decide)⟩
  · constructor
    case key => rw [spread.node_front memP both changed, before.key]
    case bare =>
      intro notFirst d
      rw [spread.node_front memP both changed, before.bare notFirst]
    all_goals simp only [spread.read_set, inP, inN, pn, reduceCtorEq, and_false, and_true,
      if_false, before.cookie, before.sized, before.owner, before.prevFree, before.type]
    · exact free_type_congr first validB validN
    · exact spread.fits inN
  · constructor
    case key => rw [spread.node_front inN both changed, next.key]
    case bare =>
      intro notFirst d
      rw [spread.node_front inN both changed, next.bare notFirst]
    all_goals simp only [spread.read_set, inP, inN, np, reduceCtorEq, and_false, and_true,
      if_false, next.cookie, next.sized, next.owner, next.nextFree, next.type]
    · exact spread.fits inP
  · refine rest.congr (fun x member => ?_)
      (fun x member => spread.even x (memN x (List.mem_cons_of_mem n member)))
      (fun x member => spread.bound x (memN x (List.mem_cons_of_mem n member)))
    apply spread.same_front (memN x (List.mem_cons_of_mem n member)) both ?_ changed
    simp only [List.mem_cons, List.not_mem_nil, or_false, not_or]
    constructor
    · rintro rfl
      exact pPost member
    · rintro rfl
      exact nPost member
  · exact changed.mono (front_scope_mono (by simp))
  · exact fun x member => (header_set spread member memP _ (by decide)).trans
      (header_set spread member inN _ (by decide))

/-- A block behind the first one of its list is unlinked. -/
theorem remove_listed {h : Nat} (rep : FreeRep m pool free s rest) (head : h ∈ heads s)
    (member : b ∈ rest h) :
    ∃ m', removeFromPool turns m b = .ok m' ∧ Removal m pool free b m' := by
  obtain ⟨before, post, split⟩ := List.append_of_mem member
  obtain ⟨pre, p, ends⟩ : ∃ pre p, h :: before = pre ++ [p] :=
    ⟨_, _, (List.dropLast_append_getLast (List.cons_ne_nil h before)).symm⟩
  have whole : h :: rest h = pre ++ p :: b :: post := by
    rw [split, ← List.cons_append, ends, List.append_assoc]
    rfl
  have shorter : h :: (before ++ post) = pre ++ p :: post := by
    rw [← List.cons_append, ends, List.append_assoc]
    rfl
  have known : ∀ x ∈ pre ++ p :: b :: post, x ∈ free := by
    rw [← whole]
    exact fun x inside => rep.mem_free.mpr ⟨h, head, List.mem_cons.mp inside⟩
  have distinct := rep.list_nodup head
  rw [whole] at distinct
  have memP := known p (by simp)
  have memB := known b (by simp)
  obtain ⟨size, list⟩ := rep.lists h head
  rw [whole] at list
  obtain ⟨first', prev', blockP, blockB, behind, rebuild⟩ := list.around
  have checked : checkPrev m pool b (freeType false (post.headD 0)) p = .ok () :=
    check_prev_listed (rep.spread.ne_zero memP) blockP
  obtain ⟨m₁, m', checks, taken, unlinked⟩ : ∃ m₁ m',
      checkNext m pool b (freeType false (post.headD 0)) (post.headD 0) = .ok () ∧
      detach turns m pool b (freeType false (post.headD 0)) p (post.headD 0) = .ok m' ∧
      Unlinked m pool size free first' prev' p b post m₁ m' := by
    cases post with
    | nil =>
      obtain ⟨m₁, m', taken, unlinked⟩ := unlink_last turns rep.spread memP memB blockP
      exact ⟨m₁, m', check_next_none, taken, unlinked⟩
    | cons n post =>
      have memN : ∀ x ∈ n :: post, x ∈ free := fun x inside => known x (by simp_all)
      obtain ⟨m₁, m', taken, unlinked⟩ := unlink_middle turns rep.spread memP memB memN
        (List.nodup_append.mp distinct).2.1 blockP behind
      have validN := rep.spread.ne_zero (memN n (List.mem_cons_self ..))
      exact ⟨m₁, m', check_next_listed validN behind.1, taken, unlinked⟩
  have scope : ∀ x ∈ p :: post, x ∈ pre ++ p :: b :: post := by
    intro x inside
    simp only [List.mem_append, List.mem_cons] at inside ⊢
    tauto
  have list' : FreeList m₁ pool size true 0 (h :: (before ++ post)) := by
    rw [shorter]
    refine rebuild m₁ (fun x inside => ?_) unlinked.before unlinked.behind
    have here := known x (List.mem_append_left _ inside)
    refine ⟨rep.spread.same_front here (fun y within => known y (scope y within)) ?_
      unlinked.changed, rep.spread.even x here, rep.spread.bound x here⟩
    intro clash
    have apart := (List.nodup_append.mp distinct).2.2 x inside x
    exact apart (by simp only [List.mem_cons] at clash ⊢; tauto) rfl
  obtain ⟨spread', distinct'⟩ := rep.erase_spread b
  have rep₁ : FreeRep m₁ pool (free.erase b) s (Function.update rest h (before ++ post)) := by
    refine rep.exchange rep.spread (fun _ inside => inside) spread' distinct'
      (fun x inside => ⟨List.mem_of_mem_erase inside, rep.even x (List.mem_of_mem_erase inside)⟩)
      head list' (fun x inside => known x (scope x inside)) (fun x inside => ?_) unlinked.changed ?_
    · refine .inl (List.mem_cons.mp ?_)
      rw [whole]
      exact scope x inside
    · have all := (listed_erase rest head).symm.trans rep.members
      rw [whole] at all
      rw [shorter]
      have moved : ((pre ++ [p]) ++ b :: (post ++ listed ((heads s).erase h) rest)).Perm
          (b :: ((pre ++ [p]) ++ (post ++ listed ((heads s).erase h) rest))) := List.perm_middle
      simp only [List.append_assoc] at moved all ⊢
      exact (List.cons_perm_iff_perm_erase.mp (moved.symm.trans all)).2
  refine ⟨_, remove_begins (rep.spread.ne_zero memB) rep.spread.valid blockB checked checks taken,
    ?_⟩
  apply Removal.finish rep memB rep₁ unlinked.header
  · exact unlinked.changed.mono (free_scope_subset fun x inside => known x (scope x inside))
  · exact fun _ => rep.spread.bytes_front memB (fun x inside => known x (scope x inside))
      unlinked.changed
  · exact unlinked.ends.trans (changed_clear_links _ b)
  · exact fun x inside => (unlinked.header' x inside).trans
      (header_clear_links rep.spread inside memB)

/-- `remove_from_pool` takes a block out of the free blocks; no assertion fails. -/
theorem remove_from_pool_spec (turns : Nat) (rep : FreeRep m pool free s rest)
    (enough : free.length + 2 ≤ turns)
    (member : b ∈ free) (positive : blockField m b .size ≠ 0) :
    ∃ m', removeFromPool turns m b = .ok m' ∧ Removal m pool free b m' := by
  obtain ⟨h, head, rfl | behind⟩ := rep.mem_free.mp member
  · cases next : rest b with
    | nil => exact remove_single rep enough head next positive
    | cons n bs => exact remove_first rep head next positive
  · exact remove_listed rep head behind

end FromList

end Mftt
