import Mftt.KmemInvariant

/-!
# Inserting and removing free blocks

`insert_into_pool` and `remove_from_pool` keep the tree of lists. Both first go through
their assertions, which the lists make true, and then change the tree, a list, or both.
-/

namespace Mftt

open ByteMemory RedBlack ColorTree Function

variable {rest : Nat → List Nat} {b : Nat}

section Listed

variable {hs hs' : List Nat} {h : Nat}

theorem listed_cons (h : Nat) (hs : List Nat) (rest : Nat → List Nat) :
    listed (h :: hs) rest = h :: rest h ++ listed hs rest := by
  simp [listed]

theorem listed_update_absent (absent : h ∉ hs) (bs : List Nat) :
    listed hs (update rest h bs) = listed hs rest := by
  apply List.flatMap_congr
  intro x member
  have other : x ≠ h := by
    rintro rfl
    exact absent member
  rw [update_of_ne other]

theorem listed_perm (perm : hs.Perm hs') : (listed hs rest).Perm (listed hs' rest) :=
  perm.flatMap_right _

/-- The lists, with that of one block in front. -/
theorem listed_erase (rest : Nat → List Nat) (member : h ∈ hs) :
    (listed hs rest).Perm (h :: rest h ++ listed (hs.erase h) rest) := by
  exact listed_perm (List.perm_cons_erase member)

/-- What hangs off one block is exchanged. -/
theorem listed_update (distinct : hs.Nodup) (member : h ∈ hs) (bs : List Nat) :
    (listed hs (update rest h bs)).Perm (h :: bs ++ listed (hs.erase h) rest) := by
  have absent : h ∉ hs.erase h := fun inside => (distinct.mem_erase_iff.mp inside).1 rfl
  refine (listed_erase _ member).trans ?_
  rw [update_self, listed_update_absent absent]

end Listed

variable {m : Bytes} {pool sz : Nat}

/-- The header of a block about to be inserted. -/
structure Prepared (m : Bytes) (pool sz b : Nat) : Prop where
  cookie : blockField m b .cookie = KMEM_COOKIE
  type : blockField m b .type = KMEM_TYPE_FREE
  sized : blockField m b .size = sz
  owner : blockField m b .pool = pool
  prevFree : blockField m b .prevFree = 0
  nextFree : blockField m b .nextFree = 0
  key : (nodeAt m (nodeOf b)).key = sz
  even : EvenLeft m b

theorem Prepared.kept {m' : Bytes} {inTree : Prop} (prepared : Prepared m pool sz b)
    (kept : KeptBlock m m' b inTree) : Prepared m' pool sz b where
  cookie := (kept.front _ (by decide)).trans prepared.cookie
  type := (kept.front _ (by decide)).trans prepared.type
  sized := (kept.front _ (by decide)).trans prepared.sized
  owner := (kept.front _ (by decide)).trans prepared.owner
  prevFree := (kept.front _ (by decide)).trans prepared.prevFree
  nextFree := (kept.front _ (by decide)).trans prepared.nextFree
  key := kept.key.trans prepared.key
  even := kept.even prepared.even

theorem block_fill (m : Bytes) (b : Nat) (f : BlockField) :
    blockField (fill m b BLOCK_SIZE 0#8) b f = 0 := by
  have := f.inside
  apply load_fill_zero
  simp only [BLOCK_SIZE]
  omega

theorem changed_set_block (m : Bytes) (b : Nat) (f : BlockField) (value : Nat) :
    ChangedIn (span b 64) m (setBlockField m b f value) := by
  apply (changed_store m (b + f.offset) f.width value).mono
  intro x inside
  have := f.inside
  simp only [Set.mem_Ico] at inside ⊢
  omega

theorem changed_set_front (m : Bytes) (b : Nat) (f : BlockField) (value : Nat)
    (front : f.offset + f.width ≤ 32) : ChangedIn (span b 32) m (setBlockField m b f value) := by
  apply (changed_store m (b + f.offset) f.width value).mono
  intro x inside
  simp only [Set.mem_Ico] at inside ⊢
  omega

theorem front_subset (b : Nat) : span b 32 ⊆ span b 64 := by
  intro x inside
  simp only [Set.mem_Ico] at inside ⊢
  omega

theorem prepare_spec (valid : b ≠ 0) (even : b % 2 = 0) (end_ : b + 64 ≤ 2 ^ 64)
    (poolBound : pool < 2 ^ 64) (bound : sz < 2 ^ 32) :
    ∃ m', prepareBlock m pool b sz = .ok m' ∧ Prepared m' pool sz b ∧
      ChangedIn (span b 64) m m' := by
  have cookie : KMEM_COOKIE % 256 ^ BlockField.cookie.width = KMEM_COOKIE := rfl
  have type : KMEM_TYPE_FREE % 256 ^ BlockField.type.width = KMEM_TYPE_FREE := rfl
  have size : sz % 256 ^ BlockField.size.width = sz := Nat.mod_eq_of_lt bound
  have owner : pool % 256 ^ BlockField.pool.width = pool := Nat.mod_eq_of_lt poolBound
  have key : sz % 256 ^ BlockField.key.width = sz :=
    Nat.mod_eq_of_lt (Nat.lt_trans bound (by decide))
  refine ⟨_, by simp only [prepareBlock, write_block_of_ne valid]; rfl, ?_, ?_⟩
  · constructor
    case key =>
      simp only [node_at_fields even end_, block_set_same, reduceCtorEq, if_true, if_false, key]
    case even =>
      simp only [EvenLeft, block_set_same, block_fill, reduceCtorEq, if_false]
    all_goals simp only [block_set_same, block_fill, reduceCtorEq, if_false]
    all_goals assumption
  · refine (changed_fill m b BLOCK_SIZE 0#8).trans ?_
    exact (changed_set_block _ b _ _).trans ((changed_set_block _ b _ _).trans
      ((changed_set_block _ b _ _).trans ((changed_set_block _ b _ _).trans
        (changed_set_block _ b _ _))))

variable {m' : Bytes} {turns : Nat} {free bs : List Nat} {s : ColorTree NodePtr} {blocks : Set Nat}

section Insert

variable {a : Nat}

section

variable (spread : Spread pool blocks)
include spread

theorem Spread.ne_zero (member : b ∈ blocks) : b ≠ 0 := by
  have := spread.behind b member
  omega

/-- The address of a block is stored whole. -/
theorem Spread.fits (member : b ∈ blocks) : b % 256 ^ 8 = b := by
  have := spread.bound b member
  exact Nat.mod_eq_of_lt (by omega)

theorem Spread.node_ne_null (member : b ∈ blocks) : nodeOf b ≠ .null := by
  intro null
  have address := node_of_addr (spread.even b member) (spread.bound b member)
  rw [null] at address
  have zero : NodePtr.null.addr.toNat = 0 := rfl
  omega

theorem Spread.node_inj (left : a ∈ blocks) (right : b ∈ blocks) (same : nodeOf a = nodeOf b) :
    a = b := by
  have first := block_of_node (spread.even a left) (spread.bound a left)
  have second := block_of_node (spread.even b right) (spread.bound b right)
  rw [← first, same, second]

/-- A block apart from one that has been written. -/
theorem Spread.same_block (left : a ∈ blocks) (right : b ∈ blocks) (other : a ≠ b)
    (changed : ChangedIn (span b 64) m m') : SameBlock m m' a := by
  apply SameBlock.of_changed changed
  intro x inside outside
  have apart := spread.apart a left b right other
  unfold Apart at apart
  simp only [Set.mem_Ico] at inside outside
  omega

end

/-- The bytes in front of the nodes of some blocks. -/
def frontScope (bs : List Nat) : Set Nat := ⋃ x ∈ bs, span x 32

theorem front_scope_mono {bs' : List Nat} (subset : bs ⊆ bs') : frontScope bs ⊆ frontScope bs' :=
  Set.biUnion_subset_biUnion_left subset

theorem changed_front (m : Bytes) (member : b ∈ bs) (f : BlockField) (value : Nat)
    (front : f.offset + f.width ≤ 32) : ChangedIn (frontScope bs) m (setBlockField m b f value) :=
  (changed_set_front m b f value front).mono
    (Set.subset_biUnion_of_mem (u := fun x => span x 32) member)

section

variable (spread : Spread pool blocks) (left : a ∈ blocks) (right : ∀ x ∈ bs, x ∈ blocks)
include spread left right

section

variable (changed : ChangedIn (frontScope bs) m m')
include changed

/-- The bytes of nodes stay when fields in front of nodes are written. -/
theorem Spread.bytes_front : ∀ x ∈ span (a + 32) 32, m' x = m x := by
  intro x inside
  apply changed
  intro outside
  simp only [frontScope, Set.mem_iUnion] at outside
  obtain ⟨y, member, low, high⟩ := outside
  simp only [Set.mem_Ico] at inside
  by_cases same : a = y
  · omega
  · have apart := spread.apart a left y (right y member) same
    unfold Apart at apart
    omega

theorem Spread.field_front (f : BlockField) (behind : 32 ≤ f.offset) :
    blockField m' a f = blockField m a f := by
  apply load_congr
  intro x inside
  have := f.inside
  apply spread.bytes_front left right changed
  simp only [Set.mem_Ico] at inside ⊢
  omega

theorem Spread.node_front : nodeAt m' (nodeOf a) = nodeAt m (nodeOf a) := by
  have kept := spread.field_front left right changed
  simp only [node_at_fields (spread.even a left) (spread.bound a left), kept .key (by decide),
    kept .parentAndColor (by decide), kept .L (by decide), kept .R (by decide)]

end

/-- A block that is not among those written stays. -/
theorem Spread.same_front (other : a ∉ bs) (changed : ChangedIn (frontScope bs) m m') :
    SameBlock m m' a := by
  apply SameBlock.of_changed changed
  intro x inside outside
  simp only [frontScope, Set.mem_iUnion] at outside
  obtain ⟨y, member, low, high⟩ := outside
  simp only [Set.mem_Ico] at inside
  have apart := spread.apart a left y (right y member) (by rintro rfl; exact other member)
  unfold Apart at apart
  omega

end

theorem Spread.read_set (spread : Spread pool blocks) (left : a ∈ blocks) (right : b ∈ blocks)
    (f f' : BlockField) (value : Nat) :
    blockField (setBlockField m b f value) a f' =
      if a = b ∧ f' = f then value % 256 ^ f.width else blockField m a f' := by
  by_cases same : a = b
  · subst same
    rw [block_set_same]
    simp
  · rw [block_set_apart f f' value (spread.apart b right a left (Ne.symm same)),
      if_neg (fun both => same both.1)]

theorem Spread.pool_field (spread : Spread pool blocks) (member : b ∈ blocks)
    (changed : ChangedIn (span b 64) m m') (f : PoolField) :
    poolField m' pool f = poolField m pool f := by
  apply changed.load
  intro x inside outside
  have := f.inside
  have := spread.behind b member
  simp only [Set.mem_Ico] at inside outside
  omega

/-- The free blocks stay while a block outside is prepared. -/
theorem FreeRep.prepared (rep : FreeRep m pool free s rest)
    (spread : Spread pool {x | x ∈ b :: free}) (fresh : b ∉ free)
    (changed : ChangedIn (span b 64) m m') : FreeRep m' pool free s rest := by
  apply rep.congr
  · intro a member
    refine spread.same_block (List.mem_cons_of_mem b member) (List.mem_cons_self ..) ?_ changed
    rintro rfl
    exact fresh member
  · exact spread.pool_field (List.mem_cons_self ..) changed _

/-- The number of nodes in the tree is at most that of free blocks. -/
theorem FreeRep.length_le (rep : FreeRep m pool free s rest) : s.inorder.length ≤ free.length := by
  have count : (heads s).length ≤ (listed (heads s) rest).length := by
    generalize heads s = hs
    induction hs with
    | nil => exact Nat.le_refl _
    | cons h hs ih =>
      rw [listed_cons]
      simp only [List.length_cons, List.length_append]
      omega
  rw [← rep.members.length_eq]
  simpa [heads] using count

end Insert

variable {s' : ColorTree NodePtr}

section TreeSteps

variable {t' : RbTree} {touched : Set NodePtr}

/-- What a function on the tree does to the blocks: their list data stay. -/
theorem TreeWritten.kept (written : TreeWritten m pool blocks t' m') (spread : Spread pool blocks)
    (keeps : Keeps (freeTree m pool) t' touched) (member : b ∈ blocks) :
    KeptBlock m m' b (nodeOf b ∈ touched) where
  front f front := written.field spread member f front
  key := by
    rw [written.nodes b member]
    exact keeps.keys _
  node outside := by
    rw [written.nodes b member]
    exact keeps.others _ outside
  even := written.even b member

/-- The tree that it leaves is the one in memory. -/
theorem TreeWritten.valid (written : TreeWritten m pool blocks t' m') (valid : RbValid t' s')
    (inside : ∀ p ∈ s'.inorder, ∃ b ∈ blocks, p = nodeOf b) : RbValid (freeTree m' pool) s' := by
  apply valid.congr written.root
  intro p member
  obtain ⟨b, known, rfl⟩ := inside p member
  exact written.nodes b known

end TreeSteps

section Insertion

/-- A block of a new size becomes a list of its own. -/
theorem insert_alone (valid : b ≠ 0) (even : b % 2 = 0) (bound : b + 64 ≤ 2 ^ 64)
    (prepared : Prepared m pool sz b) :
    ∃ m', insertAlone m b = .ok m' ∧ ListedBlock m' pool sz true 0 0 b ∧
      ChangedIn (frontScope [b]) m m' := by
  have returns : insertAlone m b = .ok (setBlockField (setBlockField (setBlockField m b .type
      (KMEM_TYPE_FREE ||| KMEM_TYPE_IN_TREE)) b .nextFree 0) b .prevFree 0) := by
    simp only [insertAlone, read_block_of_ne valid, write_block_of_ne valid, bind_ok, prepared.type]
  have key := prepared.key
  refine ⟨_, returns, ?_, (changed_front _ (by simp) _ _ (by decide)).trans
    ((changed_front _ (by simp) _ _ (by decide)).trans (changed_front _ (by simp) _ _ (by decide)))⟩
  constructor
  case bare => simp
  case key =>
    simp only [node_at_fields even bound] at key
    simp only [node_at_fields even bound, block_set_same, reduceCtorEq, if_false, key]
  all_goals simp only [block_set_same, reduceCtorEq, if_false, if_true, prepared.cookie,
    prepared.sized, prepared.owner]
  all_goals decide

section

variable (rep : FreeRep m pool free s rest)
include rep

/-- A list is kept where its blocks keep their data. -/
theorem FreeRep.kept_one {h : Nat} (head : h ∈ heads s)
    (kept : ∀ x ∈ h :: rest h, KeptBlock m m' x (x ∈ heads s)) :
    ∃ size, FreeList m' pool size true 0 (h :: rest h) := by
  obtain ⟨size, list⟩ := rep.lists h head
  refine ⟨size, list.kept ?_ ?_⟩
  · exact (kept h (List.mem_cons_self ..)).mono (fun _ => trivial)
  · intro x member
    exact (kept x (List.mem_cons_of_mem h member)).mono (rep.rest_not_head head member)

theorem FreeRep.kept_list (kept : ∀ x ∈ free, KeptBlock m m' x (x ∈ heads s)) {h : Nat}
    (head : h ∈ heads s) : ∃ size, FreeList m' pool size true 0 (h :: rest h) :=
  rep.kept_one head fun x member => kept x (rep.mem_free.mpr ⟨h, head, List.mem_cons.mp member⟩)

/-- The nodes that an insertion may touch, seen from the blocks. -/
theorem FreeRep.touched_iff (spread : Spread pool {x | x ∈ b :: free}) (fresh : b ∉ free) {x : Nat}
    (member : x ∈ free) :
    nodeOf x ∈ ({nodeOf b} ∪ {p | p ∈ s.inorder} : Set NodePtr) ↔ x ∈ heads s := by
  have other : nodeOf x ≠ nodeOf b := by
    intro same
    have equal := spread.node_inj (List.mem_cons_of_mem b member) (List.mem_cons_self ..) same
    exact fresh (equal ▸ member)
  simp only [Set.mem_union, Set.mem_singleton_iff, other, false_or]
  exact rep.node_mem member

theorem FreeRep.node_block {p : NodePtr} (member : p ∈ s.inorder) :
    blockOf p ∈ heads s ∧ blockOf p ∈ free ∧ p = nodeOf (blockOf p) := by
  have head : blockOf p ∈ heads s := List.mem_map.mpr ⟨p, member, rfl⟩
  exact ⟨head, rep.head_free head, rep.nodes p member⟩

/-- They are nodes of the blocks. -/
theorem FreeRep.touched_block {p : NodePtr}
    (touched : p ∈ ({nodeOf b} ∪ {p | p ∈ s.inorder} : Set NodePtr)) :
    ∃ x ∈ {x | x ∈ b :: free}, p = nodeOf x := by
  rcases touched with rfl | old
  · exact ⟨b, List.mem_cons_self .., rfl⟩
  · obtain ⟨-, inside, same⟩ := rep.node_block old
    exact ⟨blockOf p, List.mem_cons_of_mem b inside, same⟩

/-- A block of a new size: the tree has one more node. -/
theorem insert_new {t' : RbTree} {m₂ : Bytes} (spread : Spread pool {x | x ∈ b :: free})
    (fresh : b ∉ free) (prepared : Prepared m pool sz b)
    (written : TreeWritten m pool {x | x ∈ b :: free} t' m₂)
    (keeps : Keeps (freeTree m pool) t' ({nodeOf b} ∪ {p | p ∈ s.inorder})) (valid : RbValid t' s')
    (perm : s'.inorder.Perm (nodeOf b :: s.inorder)) :
    ∃ m', insertAlone m₂ b = .ok m' ∧
      FreeRep m' pool (b :: free) s' (update rest b []) ∧
      (∀ x ∈ free, KeptBlock m m' x (x ∈ heads s)) ∧ blockField m' b .size = sz ∧
      ChangedIn (span b 64) m₂ m' := by
  have here : b ∈ {x | x ∈ b :: free} := List.mem_cons_self ..
  have even := spread.even b here
  have bound := spread.bound b here
  have prepared₂ := prepared.kept (written.kept spread keeps here)
  obtain ⟨m', returns, alone, front⟩ := insert_alone (spread.ne_zero here) even bound prepared₂
  have changed : ChangedIn (span b 64) m₂ m' := by
    apply front.mono
    simp only [frontScope, List.mem_singleton, Set.iUnion_iUnion_eq_left]
    exact front_subset b
  have kept : ∀ x ∈ free, KeptBlock m m' x (x ∈ heads s) := by
    intro x member
    have inside : x ∈ {x | x ∈ b :: free} := List.mem_cons_of_mem b member
    have other : x ≠ b := by
      rintro rfl
      exact fresh member
    have same := spread.same_block inside here other changed
    have first := (written.kept spread keeps inside).mono (rep.touched_iff spread fresh member).mp
    exact first.trans (same.kept (spread.even x inside) (spread.bound x inside) _)
  have order : (heads s').Perm (b :: heads s) := by
    have mapped := perm.map blockOf
    rwa [List.map_cons, block_of_node even bound] at mapped
  have absent : b ∉ heads s := fun head => fresh (rep.head_free head)
  have known : ∀ p ∈ s'.inorder, ∃ x ∈ {x | x ∈ b :: free}, p = nodeOf x := by
    intro p member
    exact rep.touched_block (List.mem_cons.mp (perm.mem_iff.mp member))
  have tree : RbValid (freeTree m' pool) s' := by
    apply (written.valid valid known).congr
    · simp only [freeTree, spread.pool_field here changed]
    · intro p member
      obtain ⟨x, inside, rfl⟩ := known p member
      exact spread.node_front inside (by simp) front
  refine ⟨m', returns, ⟨spread, List.nodup_cons.mpr ⟨fresh, rep.distinct⟩, tree, ?_, ?_, ?_, ?_⟩,
    kept, alone.sized, changed⟩
  · intro p member
    obtain ⟨x, inside, rfl⟩ := known p member
    rw [block_of_node (spread.even x inside) (spread.bound x inside)]
  · intro h head
    rcases List.mem_cons.mp (order.mem_iff.mp head) with rfl | old
    · rw [update_self]
      exact ⟨sz, alone, trivial⟩
    · have other : h ≠ b := by
        rintro rfl
        exact absent old
      rw [update_of_ne other]
      exact rep.kept_list kept old
  · refine (listed_perm order).trans ?_
    rw [listed_cons, update_self, listed_update_absent absent]
    exact rep.members.cons b
  · refine List.forall_mem_cons.mpr ⟨?_, fun x member => (kept x member).even (rep.even x member)⟩
    exact prepared₂.even.congr (spread.field_front here (by simp) front .L (by decide))

end

section Behind

variable {e : Nat}

/-- The first block behind one in the tree. -/
theorem behind_last (spread : Spread pool {x | x ∈ b :: free}) (inside : e ∈ free)
    (fresh : b ∉ free)
    (prepared : Prepared m pool sz b) (bare : ∀ d, (nodeAt m (nodeOf b)).child d = .null)
    (block : ListedBlock m pool sz true 0 0 e) :
    ∃ m', insertBehind m pool b (nodeOf e) = .ok m' ∧
      FreeList m' pool sz true 0 [e, b] ∧ ChangedIn (frontScope [e, b]) m m' := by
  have memE : e ∈ {x | x ∈ b :: free} := List.mem_cons_of_mem b inside
  have memB : b ∈ {x | x ∈ b :: free} := List.mem_cons_self ..
  have other : e ≠ b := by
    rintro rfl
    exact fresh inside
  have validE := spread.ne_zero memE
  have validB := spread.ne_zero memB
  have back := block_of_node (spread.even e memE) (spread.bound e memE)
  have notLast : freeType true b = KMEM_TYPE_FREE ||| KMEM_TYPE_IN_TREE ||| KMEM_TYPE_HAVE_NEXT := by
    simp only [freeType, validB]
    decide
  have returns : insertBehind m pool b (nodeOf e) = .ok (setBlockField (setBlockField
      (setBlockField m e .nextFree b) b .prevFree e) e .type (freeType true b)) := by
    have inTree : hasFlag (freeType true 0) KMEM_TYPE_IN_TREE = true := by decide
    have noNext : hasFlag (freeType true 0) KMEM_TYPE_HAVE_NEXT = false := by decide
    have sameKey : (nodeAt m (nodeOf e)).key = (nodeAt m (nodeOf b)).key :=
      block.key.trans prepared.key.symm
    have type : blockField (setBlockField (setBlockField m e .nextFree b) b .prevFree e) e .type =
        freeType true 0 := by
      simp only [spread.read_set, memE, memB, reduceCtorEq, and_false, if_false, block.type]
    simp only [insertBehind, back, read_block_of_ne validE, bind_ok, block.cookie, block.type,
      block.owner, sameKey, write_block_of_ne validE, write_block_of_ne validB, type, notLast]
    rfl
  have changed : ChangedIn (frontScope [e, b]) m (setBlockField (setBlockField
      (setBlockField m e .nextFree b) b .prevFree e) e .type (freeType true b)) :=
    (changed_front m (by simp) .nextFree b (by decide)).trans
      ((changed_front _ (by simp) .prevFree e (by decide)).trans
        (changed_front _ (by simp) .type (freeType true b) (by decide)))
  have both : ∀ x ∈ [e, b], x ∈ {x | x ∈ b :: free} := by
    simp only [List.forall_mem_cons]
    exact ⟨memE, memB, by simp⟩
  refine ⟨_, returns, ⟨?_, ?_, trivial⟩, changed⟩
  · constructor
    case bare => simp
    case key => rw [spread.node_front memE both changed, block.key]
    all_goals simp only [spread.read_set, memE, memB, other, reduceCtorEq, and_false, and_true,
      if_false, block.cookie, block.sized, block.owner, block.prevFree]
    · exact free_type_fits true b
    · exact spread.fits memB
  · constructor
    case key => rw [spread.node_front memB both changed, prepared.key]
    case bare =>
      intro _ d
      rw [spread.node_front memB both changed, bare]
    all_goals simp only [spread.read_set, memE, memB, other.symm, reduceCtorEq, and_false, if_false,
      prepared.cookie, prepared.sized, prepared.owner, prepared.type, prepared.nextFree]
    · rfl
    · exact spread.fits memE
    · rfl

/-- The writes that put `b` between the first two blocks of a list. -/
def linkBetween (m : Bytes) (e b n : Nat) : Bytes :=
  setBlockField (setBlockField (setBlockField (setBlockField (setBlockField m n .prevFree b)
    b .nextFree n) e .nextFree b) b .prevFree e) b .type (freeType false n)

theorem changed_link_between (m : Bytes) (e b n : Nat) :
    ChangedIn (frontScope [e, b, n]) m (linkBetween m e b n) :=
  (changed_front m (by simp) .prevFree b (by decide)).trans
    ((changed_front _ (by simp) .nextFree n (by decide)).trans
      ((changed_front _ (by simp) .nextFree b (by decide)).trans
        ((changed_front _ (by simp) .prevFree e (by decide)).trans
          (changed_front _ (by simp) .type _ (by decide)))))

/-- The assertions hold in front of a block in the tree that has one behind it. -/
theorem insert_behind_first {n prev : Nat} (spread : Spread pool blocks) (memE : e ∈ blocks)
    (memB : b ∈ blocks) (memN : n ∈ blocks) (prepared : Prepared m pool sz b)
    (block : ListedBlock m pool sz true prev n e) (guard : blockField m n .prevFree = e) :
    insertBehind m pool b (nodeOf e) = .ok (linkBetween m e b n) := by
  have validE := spread.ne_zero memE
  have validB := spread.ne_zero memB
  have validN := spread.ne_zero memN
  have back := block_of_node (spread.even e memE) (spread.bound e memE)
  have middle : freeType false n = KMEM_TYPE_FREE ||| KMEM_TYPE_HAVE_NEXT := by
    simp only [freeType, validN]
    decide
  have inTree : hasFlag (freeType true n) KMEM_TYPE_IN_TREE = true := by
    simp only [freeType, validN]
    decide
  have hasNext : hasFlag (freeType true n) KMEM_TYPE_HAVE_NEXT = true := by
    simp only [freeType, validN]
    decide
  have sameKey : (nodeAt m (nodeOf e)).key = (nodeAt m (nodeOf b)).key :=
    block.key.trans prepared.key.symm
  have type : blockField (setBlockField (setBlockField (setBlockField
      (setBlockField m n .prevFree b) b .nextFree n) e .nextFree b) b .prevFree e) b .type =
      KMEM_TYPE_FREE := by
    simp only [spread.read_set, memE, memB, memN, reduceCtorEq, and_false, if_false, prepared.type]
  simp only [linkBetween, insertBehind, back, read_block_of_ne validE, read_block_of_ne validN,
    read_block_of_ne validB, bind_ok, block.cookie, block.type, block.owner, assert_true, inTree,
    sameKey, hasNext, if_true, block.nextFree, guard, ne_eq, validN, not_false_eq_true,
    write_block_of_ne validE, write_block_of_ne validB, write_block_of_ne validN, type, middle]

/-- A block between one in the tree and those behind it. -/
theorem behind_first {n : Nat} (spread : Spread pool {x | x ∈ b :: free})
    (inside : ∀ x ∈ e :: n :: bs, x ∈ free) (distinct : (e :: n :: bs).Nodup) (fresh : b ∉ free)
    (prepared : Prepared m pool sz b) (bare : ∀ d, (nodeAt m (nodeOf b)).child d = .null)
    (list : FreeList m pool sz true 0 (e :: n :: bs)) :
    ∃ m', insertBehind m pool b (nodeOf e) = .ok m' ∧
      FreeList m' pool sz true 0 (e :: b :: n :: bs) ∧
      ChangedIn (frontScope (e :: b :: n :: bs)) m m' := by
  obtain ⟨block, next, behind⟩ := list
  have memE : e ∈ {x | x ∈ b :: free} := List.mem_cons_of_mem b (inside e (by simp))
  have memN : n ∈ {x | x ∈ b :: free} := List.mem_cons_of_mem b (inside n (by simp))
  have memB : b ∈ {x | x ∈ b :: free} := List.mem_cons_self ..
  have eb : e ≠ b := by
    rintro rfl
    exact fresh (inside e (by simp))
  have nb : n ≠ b := by
    rintro rfl
    exact fresh (inside n (by simp))
  have en : e ≠ n := by
    rintro rfl
    simp at distinct
  have changed := changed_link_between m e b n
  have three : ∀ x ∈ [e, b, n], x ∈ {x | x ∈ b :: free} := by
    simp only [List.forall_mem_cons]
    exact ⟨memE, memB, memN, by simp⟩
  refine ⟨_, insert_behind_first spread memE memB memN prepared block next.prevFree,
    ⟨?_, ?_, ?_, ?_⟩, changed.mono (front_scope_mono ?_)⟩
  · constructor
    case bare => simp
    case key => rw [spread.node_front memE three changed, block.key]
    all_goals simp only [linkBetween, spread.read_set, memE, memB, memN, eb, en, reduceCtorEq,
      and_false, and_true, if_false, block.cookie, block.sized, block.owner, block.prevFree,
      block.type]
    · exact free_type_congr true (spread.ne_zero memN) (spread.ne_zero memB)
    · exact spread.fits memB
  · constructor
    case key => rw [spread.node_front memB three changed, prepared.key]
    case bare =>
      intro _ d
      rw [spread.node_front memB three changed, bare]
    all_goals simp only [linkBetween, spread.read_set, memE, memB, memN, eb.symm, reduceCtorEq,
      and_false, if_false, prepared.cookie, prepared.sized, prepared.owner]
    · exact free_type_fits false n
    · exact spread.fits memE
    · exact spread.fits memN
  · constructor
    case key => rw [spread.node_front memN three changed, next.key]
    case bare =>
      intro notFirst d
      rw [spread.node_front memN three changed, next.bare notFirst]
    all_goals simp only [linkBetween, spread.read_set, memE, memB, memN, en.symm, nb, reduceCtorEq,
      and_false, and_true, if_false, next.cookie, next.sized, next.owner, next.type, next.nextFree]
    · exact spread.fits memB
  · have known : ∀ x ∈ bs, x ∈ {x | x ∈ b :: free} := fun x member =>
      List.mem_cons_of_mem b (inside x (by simp [member]))
    refine behind.congr (fun x member => ?_) (fun x member => spread.even x (known x member))
      (fun x member => spread.bound x (known x member))
    apply spread.same_front (known x member) three ?_ changed
    simp only [List.nodup_cons, List.mem_cons, not_or] at distinct
    simp only [List.mem_cons, List.not_mem_nil, or_false, not_or]
    refine ⟨?_, ?_, ?_⟩
    · rintro rfl
      exact distinct.1.2 member
    · rintro rfl
      exact fresh (inside x (by simp [member]))
    · rintro rfl
      exact distinct.2.1 member
  · simp

/-- The header of a pool is apart from the bytes in front of nodes. -/
theorem Spread.pool_front (spread : Spread pool blocks) (inside : ∀ x ∈ bs, x ∈ blocks)
    (changed : ChangedIn (frontScope bs) m m') (f : PoolField) :
    poolField m' pool f = poolField m pool f := by
  apply changed.load
  intro x here outside
  have := f.inside
  simp only [frontScope, Set.mem_iUnion] at outside
  obtain ⟨y, member, low, high⟩ := outside
  have := spread.behind y (inside y member)
  simp only [Set.mem_Ico] at here
  omega

/-- A list of a tree of lists is exchanged for another one with the same first block,
where only blocks of the two lists are written. -/
theorem FreeRep.exchange {free' touched : List Nat} {size : Nat} (rep : FreeRep m pool free s rest)
    (wide : Spread pool blocks) (within : ∀ x ∈ free, x ∈ blocks)
    (spread : Spread pool {x | x ∈ free'}) (distinct : free'.Nodup)
    (even : ∀ x ∈ free', x ∈ blocks ∧ EvenLeft m x) (head : e ∈ heads s)
    (list : FreeList m' pool size true 0 (e :: bs)) (known : ∀ x ∈ touched, x ∈ blocks)
    (scope : ∀ x ∈ touched, (x = e ∨ x ∈ rest e) ∨ x ∉ free)
    (changed : ChangedIn (frontScope touched) m m')
    (members : (e :: bs ++ listed ((heads s).erase e) rest).Perm free') :
    FreeRep m' pool free' s (update rest e bs) where
  spread := spread
  distinct := distinct
  tree := by
    apply rep.tree.congr
    · simp only [freeTree, wide.pool_front known changed]
    · intro p member
      obtain ⟨-, inside, same⟩ := rep.node_block member
      rw [same]
      exact wide.node_front (within _ inside) known changed
  nodes := rep.nodes
  lists h head' := by
    by_cases same : h = e
    · subst same
      rw [update_self]
      exact ⟨size, list⟩
    · rw [update_of_ne same]
      obtain ⟨size', list'⟩ := rep.lists h head'
      have mine : ∀ x ∈ h :: rest h, x ∈ free := fun x member =>
        rep.mem_free.mpr ⟨h, head', List.mem_cons.mp member⟩
      refine ⟨size', list'.congr (fun x member => ?_)
        (fun x member => rep.spread.even x (mine x member))
        (fun x member => rep.spread.bound x (mine x member))⟩
      apply wide.same_front (within x (mine x member)) known ?_ changed
      -- the lists have no block in common
      intro clash
      have theirs := (scope x clash).resolve_right (fun absent => absent (mine x member))
      exact same (rep.head_unique head' head (List.mem_cons.mp member) theirs)
  members := (listed_update rep.heads_nodup head bs).trans members
  even x member :=
    (even x member).2.congr (wide.field_front (even x member).1 known changed .L (by decide))

/-- The bytes of some blocks and of the root of a pool's tree. -/
theorem free_scope_subset (subset : bs ⊆ free) : frontScope bs ⊆ freeScope pool free := by
  intro x inside
  simp only [frontScope, Set.mem_iUnion] at inside
  obtain ⟨y, member, within⟩ := inside
  refine .inr ?_
  simp only [Set.mem_iUnion]
  exact ⟨y, subset member, front_subset y within⟩

/-- A block of a size that the tree has: its list gets one more block. -/
theorem insert_listed (rep : FreeRep m pool free s rest)
    (spread : Spread pool {x | x ∈ b :: free}) (fresh : b ∉ free) (prepared : Prepared m pool sz b)
    (bare : ∀ d, (nodeAt m (nodeOf b)).child d = .null) (head : e ∈ heads s)
    (key : (nodeAt m (nodeOf e)).key = sz) :
    ∃ m', insertBehind m pool b (nodeOf e) = .ok m' ∧
      FreeRep m' pool (b :: free) s (update rest e (b :: rest e)) ∧
      blockField m' b .size = sz ∧
      (∀ x ∈ free, blockField m' x .size = blockField m x .size) ∧
      ChangedIn (freeScope pool (b :: free)) m m' := by
  obtain ⟨size, list⟩ := rep.lists e head
  obtain rfl : size = sz := list.1.key.symm.trans key
  have known : ∀ x ∈ e :: rest e, x ∈ free := fun x member =>
    rep.mem_free.mpr ⟨e, head, List.mem_cons.mp member⟩
  obtain ⟨m', returns, list', changed⟩ : ∃ m', insertBehind m pool b (nodeOf e) = .ok m' ∧
      FreeList m' pool size true 0 (e :: b :: rest e) ∧
      ChangedIn (frontScope (e :: b :: rest e)) m m' := by
    cases behind : rest e with
    | nil =>
      rw [behind] at list
      exact behind_last spread (rep.head_free head) fresh prepared bare list.1
    | cons n bs =>
      have distinct := rep.list_nodup head
      rw [behind] at list known distinct
      exact behind_first spread known distinct fresh prepared bare list
  have inside : ∀ x ∈ e :: b :: rest e, x ∈ b :: free := by
    intro x member
    simp only [List.mem_cons] at member
    rcases member with rfl | rfl | inside
    · exact List.mem_cons_of_mem b (rep.head_free head)
    · exact List.mem_cons_self ..
    · exact List.mem_cons_of_mem b (rep.rest_free head inside)
  have old : ∀ x ∈ e :: b :: rest e, (x = e ∨ x ∈ rest e) ∨ x ∉ free := by
    intro x member
    simp only [List.mem_cons] at member
    rcases member with rfl | rfl | inside
    · exact .inl (.inl rfl)
    · exact .inr fresh
    · exact .inl (.inr inside)
  refine ⟨m', returns, ?_, ?_, ?_, changed.mono (free_scope_subset inside)⟩
  · have even : ∀ x ∈ b :: free, x ∈ {x | x ∈ b :: free} ∧ EvenLeft m x := fun x member =>
      ⟨member, List.forall_mem_cons.mpr ⟨prepared.even, rep.even⟩ x member⟩
    refine rep.exchange spread (fun x => List.mem_cons_of_mem b) spread
      (List.nodup_cons.mpr ⟨fresh, rep.distinct⟩) even head list' inside old changed ?_
    have members := (listed_erase rest head).symm.trans rep.members
    exact (List.Perm.swap b e _).trans (members.cons b)
  · obtain ⟨_, _, _, block⟩ := list'.block (b := b) (by simp)
    exact block.sized
  · intro x member
    by_cases listed : x ∈ e :: b :: rest e
    · obtain ⟨_, _, _, block⟩ := list'.block listed
      obtain ⟨_, _, _, before⟩ := list.block (List.mem_cons.mpr ((old x listed).resolve_right
        (not_not.mpr member)))
      rw [block.sized, before.sized]
    · exact (spread.same_front (List.mem_cons_of_mem b member) inside listed changed).field _

end Behind

theorem block_subset (member : b ∈ free) : span b 64 ⊆ freeScope pool free := by
  intro x inside
  refine .inr ?_
  simp only [Set.mem_iUnion]
  exact ⟨b, member, inside⟩

theorem tree_scope_subset (pool : Nat) (free : List Nat) :
    treeScope pool {x | x ∈ free} ⊆ freeScope pool free := by
  rintro x (root | inside)
  · exact .inl root
  · refine .inr ?_
    simp only [Set.mem_iUnion] at inside ⊢
    obtain ⟨y, member, low, high⟩ := inside
    exact ⟨y, member, ⟨by omega, by omega⟩⟩

/-- `insert_into_pool` adds a block to the free blocks; no assertion fails. -/
theorem insert_into_pool_spec (turns : Nat) (rep : FreeRep m pool free s rest)
    (enough : free.length + 2 ≤ turns)
    (spread : Spread pool {x | x ∈ b :: free}) (fresh : b ∉ free) (poolBound : pool < 2 ^ 64)
    (large : 64 ≤ sz) (small : sz < 2 ^ 32) :
    ∃ m' s' rest', insertIntoPool turns m pool b sz = .ok m' ∧
      FreeRep m' pool (b :: free) s' rest' ∧ blockField m' b .size = sz ∧
      (∀ x ∈ free, blockField m' x .size = blockField m x .size) ∧
      ChangedIn (freeScope pool (b :: free)) m m' := by
  have here : b ∈ {x | x ∈ b :: free} := List.mem_cons_self ..
  obtain ⟨m₁, prepare, prepared, changed₁⟩ := prepare_spec (m := m) (spread.ne_zero here)
    (spread.even b here) (spread.bound b here) poolBound small
  have rep₁ := rep.prepared spread fresh changed₁
  have size₁ : ∀ x ∈ free, blockField m₁ x .size = blockField m x .size := by
    intro x member
    refine (spread.same_block (List.mem_cons_of_mem b member) here ?_ changed₁).field _
    rintro rfl
    exact fresh member
  have absent : nodeOf b ∉ s.inorder := by
    intro member
    obtain ⟨-, inside, same⟩ := rep.node_block member
    have equal := spread.node_inj here (List.mem_cons_of_mem b inside) same
    exact fresh (equal ▸ inside)
  have count := rep.length_le
  obtain ⟨existed, t', s', returns, valid', keeps, cases⟩ :=
    rb_insert_spec turns (by omega) rep₁.tree (spread.node_ne_null here) absent
  obtain ⟨m₂, onto, written⟩ :=
    on_tree_spec (f := (rbInsert turns · (nodeOf b))) spread returns keeps
      (fun _ => rep.touched_block)
  have changed₂ := written.changed.mono (tree_scope_subset pool (b :: free))
  have begins : insertIntoPool turns m pool b sz =
      if existed ≠ .null ∧ existed ≠ nodeOf b then insertBehind m₂ pool b existed
      else insertAlone m₂ b := by
    simp only [insertIntoPool, assert_true _ spread.valid, assert_true _ (spread.ne_zero here),
      assert_true _ large, bind_ok, prepare, onto]
  have early := (changed₁.mono (block_subset (List.mem_cons_self ..))).trans changed₂
  rw [begins]
  rcases cases with ⟨null, perm⟩ | ⟨member, sameKey, rfl, others, bare⟩
  · obtain ⟨m', alone, rep', kept, sized, changed⟩ :=
      insert_new rep₁ spread fresh prepared written keeps valid' perm
    rw [if_neg (fun both => both.1 null)]
    refine ⟨m', s', _, alone, rep', sized, ?_, early.trans
      (changed.mono (block_subset (List.mem_cons_self ..)))⟩
    intro x inside
    rw [(kept x inside).front _ (by decide), size₁ x inside]
  · obtain ⟨head, inside, same⟩ := rep.node_block member
    have kept : ∀ x ∈ free, KeptBlock m₁ m₂ x (x ∈ heads s') := fun x known =>
      (written.kept spread keeps (List.mem_cons_of_mem b known)).mono
        (rep₁.touched_iff spread fresh known).mp
    have rep₂ : FreeRep m₂ pool free s' rest :=
      ⟨rep.spread, rep.distinct, written.valid valid' (fun p old => rep.touched_block (.inr old)),
        rep.nodes, fun h => rep₁.kept_list kept, rep.members,
        fun x known => (kept x known).even (rep₁.even x known)⟩
    have key : (nodeAt m₂ (nodeOf (blockOf existed))).key = sz := by
      have held := written.nodes (blockOf existed) (List.mem_cons_of_mem b inside)
      rw [← same] at held ⊢
      rw [held, keeps.keys, sameKey]
      exact prepared.key
    obtain ⟨m', behind, rep', sized, sizes, changed⟩ := insert_listed rep₂ spread fresh
      (prepared.kept (written.kept spread keeps here))
      (fun d => by rw [written.nodes b here, bare]) head key
    have other : existed ≠ nodeOf b := by
      rintro rfl
      exact absent member
    have some : existed ≠ .null := by
      rw [same]
      exact rep.spread.node_ne_null inside
    rw [← same] at behind
    rw [if_pos ⟨some, other⟩]
    refine ⟨m', s', _, behind, rep', sized, ?_, early.trans changed⟩
    intro x within
    rw [sizes x within, (kept x within).front .size (by decide), size₁ x within]

end Insertion

end Mftt
