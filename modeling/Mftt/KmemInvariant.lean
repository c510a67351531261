import Mathlib.Data.List.Pairwise
import Mftt.Kmem

/-!
# The free blocks of a pool

The free blocks form a tree of lists: each node of the tree is the first block of a
list of blocks of one size. The predicates below say how memory holds it and which
bytes it depends on.
-/

namespace Mftt

open ByteMemory RedBlack ColorTree

/-- The type of a free block: the first one of its list is in the tree, and all but the
last one have a next block. -/
def freeType (first : Bool) (next : Nat) : Nat :=
  KMEM_TYPE_FREE ||| (if next = 0 then 0 else KMEM_TYPE_HAVE_NEXT) |||
    if first then KMEM_TYPE_IN_TREE else 0

theorem free_type_fits (first : Bool) (next : Nat) :
    freeType first next % 256 ^ BlockField.type.width = freeType first next := by
  unfold freeType
  cases first <;> split <;> rfl

theorem free_type_congr (first : Bool) {next next' : Nat} (some : next ≠ 0) (some' : next' ≠ 0) :
    freeType first next = freeType first next' := by
  simp only [freeType, some, some']

/-- The header of a free block in a list of blocks of the given size. A block that is not
in the tree has a node without children, ready to replace the one in the tree. -/
structure ListedBlock (m : Bytes) (pool size : Nat) (first : Bool) (prev next b : Nat) :
    Prop where
  cookie : blockField m b .cookie = KMEM_COOKIE
  type : blockField m b .type = freeType first next
  sized : blockField m b .size = size
  owner : blockField m b .pool = pool
  prevFree : blockField m b .prevFree = prev
  nextFree : blockField m b .nextFree = next
  key : (nodeAt m (nodeOf b)).key = size
  bare : first = false → ∀ d, (nodeAt m (nodeOf b)).child d = .null

/-- Blocks of one size that hang one behind the other. -/
def FreeList (m : Bytes) (pool size : Nat) : Bool → Nat → List Nat → Prop
  | _, _, [] => True
  | first, prev, b :: rest =>
    ListedBlock m pool size first prev (rest.headD 0) b ∧ FreeList m pool size false b rest

/-- Addresses of the blocks in the tree. -/
def heads (s : ColorTree NodePtr) : List Nat := s.inorder.map blockOf

/-- All blocks of the lists with the given first blocks. -/
def listed (hs : List Nat) (rest : Nat → List Nat) : List Nat :=
  hs.flatMap fun b => b :: rest b

/-- The memory holds a pool's free blocks `free` as a tree `s` of lists. -/
structure FreeRep (m : Bytes) (pool : Nat) (free : List Nat) (s : ColorTree NodePtr)
    (rest : Nat → List Nat) : Prop where
  spread : Spread pool {b | b ∈ free}
  distinct : free.Nodup
  tree : RbValid (freeTree m pool) s
  nodes : ∀ p ∈ s.inorder, p = nodeOf (blockOf p)
  lists : ∀ b ∈ heads s, ∃ size, FreeList m pool size true 0 (b :: rest b)
  members : (listed (heads s) rest).Perm free
  even : ∀ b ∈ free, EvenLeft m b

/-- The bytes that belong to the free blocks of a pool. -/
def freeScope (pool : Nat) (free : List Nat) : Set Nat :=
  span (pool + 24) 8 ∪ ⋃ b ∈ free, span b 64

variable {m m' : Bytes} {pool b : Nat}

variable {first : Bool} {bs : List Nat} {h : Nat}

section Blocks

variable {b' : Nat} {blocks : Set Nat}

theorem node_at_fields (even : b % 2 = 0) (bound : b + 64 ≤ 2 ^ 64) :
    nodeAt m (nodeOf b) = ⟨blockField m b .key, BitVec.ofNat 64 (blockField m b .parentAndColor),
      ptrOf (blockField m b .L), ptrOf (blockField m b .R)⟩ := by
  simp only [nodeAt, node_of_addr even bound]
  rfl

/-- A block whose bytes are unchanged. -/
def SameBlock (m m' : Bytes) (b : Nat) : Prop := ∀ x ∈ span b 64, m' x = m x

theorem SameBlock.field (same : SameBlock m m' b) (f : BlockField) :
    blockField m' b f = blockField m b f := by
  apply load_congr
  intro x inside
  apply same
  have := f.inside
  simp only [Set.mem_Ico] at inside ⊢
  omega

theorem SameBlock.node (same : SameBlock m m' b) (even : b % 2 = 0) (bound : b + 64 ≤ 2 ^ 64) :
    nodeAt m' (nodeOf b) = nodeAt m (nodeOf b) := by
  simp only [node_at_fields even bound, same.field]

theorem SameBlock.of_changed {scope : Set Nat} (changed : ChangedIn scope m m')
    (apart : ∀ x ∈ span b 64, x ∉ scope) : SameBlock m m' b :=
  fun x inside => changed x (apart x inside)

theorem ListedBlock.congr {size prev next : Nat} (block : ListedBlock m pool size first prev next b)
    (same : SameBlock m m' b) (even : b % 2 = 0) (bound : b + 64 ≤ 2 ^ 64) :
    ListedBlock m' pool size first prev next b where
  cookie := (same.field _).trans block.cookie
  type := (same.field _).trans block.type
  sized := (same.field _).trans block.sized
  owner := (same.field _).trans block.owner
  prevFree := (same.field _).trans block.prevFree
  nextFree := (same.field _).trans block.nextFree
  key := by rw [same.node even bound, block.key]
  bare notFirst d := by rw [same.node even bound, block.bare notFirst]

/-- A list depends on the bytes of its blocks only. -/
theorem FreeList.congr {size prev : Nat} (list : FreeList m pool size first prev bs)
    (same : ∀ b ∈ bs, SameBlock m m' b) (even : ∀ b ∈ bs, b % 2 = 0)
    (bound : ∀ b ∈ bs, b + 64 ≤ 2 ^ 64) : FreeList m' pool size first prev bs := by
  induction bs generalizing first prev with
  | nil => trivial
  | cons b rest ih =>
    simp only [List.forall_mem_cons] at same even bound
    exact ⟨list.1.congr same.1 even.1 bound.1, ih list.2 same.2 even.2 bound.2⟩

/-- A field of the header in front of the node, after a function on the tree. -/
theorem TreeWritten.field {t' : RbTree} (written : TreeWritten m pool blocks t' m')
    (spread : Spread pool blocks) (member : b ∈ blocks) (f : BlockField)
    (front : f.offset + f.width ≤ 32) : blockField m' b f = blockField m b f := by
  apply written.changed.load
  intro x inside scope
  have behind := spread.behind b member
  simp only [Set.mem_Ico] at inside
  simp only [treeScope, Set.mem_union, Set.mem_iUnion, Set.mem_Ico] at scope
  rcases scope with root | ⟨b', member', low, high⟩
  · omega
  · by_cases same : b = b'
    · omega
    · have apart := spread.apart b member b' member' same
      unfold Apart at apart
      omega

end Blocks

section Free

variable {free : List Nat} {s : ColorTree NodePtr} {rest : Nat → List Nat}

theorem mem_listed {hs : List Nat} : b ∈ listed hs rest ↔ ∃ h ∈ hs, b = h ∨ b ∈ rest h := by
  simp [listed]

variable (rep : FreeRep m pool free s rest)
include rep

theorem FreeRep.mem_free : b ∈ free ↔ ∃ h ∈ heads s, b = h ∨ b ∈ rest h := by
  rw [← rep.members.mem_iff, mem_listed]

/-- A block of the tree is the block of its node. -/
theorem FreeRep.node_mem (member : b ∈ free) : nodeOf b ∈ s.inorder ↔ b ∈ heads s := by
  constructor
  · intro inside
    have back := block_of_node (rep.spread.even b member) (rep.spread.bound b member)
    exact List.mem_map.mpr ⟨nodeOf b, inside, back⟩
  · intro inside
    obtain ⟨p, node, rfl⟩ := List.mem_map.mp inside
    rwa [← rep.nodes p node]

theorem FreeRep.head_free (head : b ∈ heads s) :
    b ∈ free := rep.mem_free.mpr ⟨b, head, .inl rfl⟩

theorem FreeRep.rest_free (head : h ∈ heads s) (member : b ∈ rest h) :
    b ∈ free := rep.mem_free.mpr ⟨h, head, .inr member⟩

/-- The lists have no block in common, and none occurs twice. -/
theorem FreeRep.listed_nodup : (listed (heads s) rest).Nodup :=
  rep.members.nodup_iff.mpr rep.distinct

theorem FreeRep.list_nodup (head : h ∈ heads s) :
    (h :: rest h).Nodup := (List.nodup_flatMap.mp rep.listed_nodup).1 h head

theorem FreeRep.head_unique {h' : Nat} (head : h ∈ heads s) (head' : h' ∈ heads s)
    (member : b = h ∨ b ∈ rest h) (member' : b = h' ∨ b ∈ rest h') : h = h' := by
  by_contra other
  have apart := (List.nodup_flatMap.mp rep.listed_nodup).2
  have symmetric : Std.Symm (Function.onFun List.Disjoint fun b => b :: rest b) :=
    ⟨fun _ _ disjoint => disjoint.symm⟩
  have disjoint := apart.forall head head' other
  exact disjoint (List.mem_cons.mpr member) (List.mem_cons.mpr member')

theorem FreeRep.heads_nodup : (heads s).Nodup := by
  have distinct : s.inorder.Nodup := by simpa [TreePath.values] using rep.tree.holds.distinct
  apply distinct.map_on
  intro p left q right same
  rw [rep.nodes p left, rep.nodes q right, same]

/-- A block behind the first one of a list is not in the tree. -/
theorem FreeRep.rest_not_head (head : h ∈ heads s) (member : b ∈ rest h) : b ∉ heads s := by
  intro inside
  obtain rfl := rep.head_unique inside head (.inl rfl) (.inr member)
  exact (List.nodup_cons.mp (rep.list_nodup head)).1 member

theorem FreeRep.congr (same : ∀ b ∈ free, SameBlock m m' b)
    (root : poolField m' pool .freeTree = poolField m pool .freeTree) :
    FreeRep m' pool free s rest where
  spread := rep.spread
  distinct := rep.distinct
  tree := by
    apply rep.tree.congr
    · simp only [freeTree, root]
    · intro p member
      have head : blockOf p ∈ heads s := List.mem_map.mpr ⟨p, member, rfl⟩
      have inside := rep.head_free head
      rw [rep.nodes p member]
      exact (same _ inside).node (rep.spread.even _ inside) (rep.spread.bound _ inside)
  nodes := rep.nodes
  lists h head := by
    obtain ⟨size, list⟩ := rep.lists h head
    have all : ∀ b ∈ h :: rest h, b ∈ free := fun b member =>
      rep.mem_free.mpr ⟨h, head, List.mem_cons.mp member⟩
    exact ⟨size, list.congr (fun b member => same b (all b member))
      (fun b member => rep.spread.even b (all b member))
      (fun b member => rep.spread.bound b (all b member))⟩
  members := rep.members
  even b member := (rep.even b member).congr ((same b member).field .L)

end Free

section Kept

variable {size prev next : Nat}

/-- A block whose list data are unchanged. The links of a block in the tree may change. -/
structure KeptBlock (m m' : Bytes) (b : Nat) (inTree : Prop) : Prop where
  front : ∀ f : BlockField, f.offset + f.width ≤ 32 → blockField m' b f = blockField m b f
  key : (nodeAt m' (nodeOf b)).key = (nodeAt m (nodeOf b)).key
  node : ¬inTree → nodeAt m' (nodeOf b) = nodeAt m (nodeOf b)
  even : EvenLeft m b → EvenLeft m' b

theorem SameBlock.kept (same : SameBlock m m' b) (even : b % 2 = 0) (bound : b + 64 ≤ 2 ^ 64)
    (inTree : Prop) : KeptBlock m m' b inTree where
  front f _ := same.field f
  key := by rw [same.node even bound]
  node _ := same.node even bound
  even known := known.congr (same.field .L)

theorem KeptBlock.trans {m'' : Bytes} {inTree : Prop} (first : KeptBlock m m' b inTree)
    (second : KeptBlock m' m'' b inTree) : KeptBlock m m'' b inTree where
  front f front := (second.front f front).trans (first.front f front)
  key := second.key.trans first.key
  node outside := (second.node outside).trans (first.node outside)
  even known := second.even (first.even known)

theorem KeptBlock.mono {inTree wider : Prop} (kept : KeptBlock m m' b inTree)
    (implied : inTree → wider) : KeptBlock m m' b wider where
  front := kept.front
  key := kept.key
  node outside := kept.node (fun inside => outside (implied inside))
  even := kept.even

theorem ListedBlock.kept (block : ListedBlock m pool size first prev next b)
    (kept : KeptBlock m m' b (first = true)) : ListedBlock m' pool size first prev next b where
  cookie := (kept.front _ (by decide)).trans block.cookie
  type := (kept.front _ (by decide)).trans block.type
  sized := (kept.front _ (by decide)).trans block.sized
  owner := (kept.front _ (by decide)).trans block.owner
  prevFree := (kept.front _ (by decide)).trans block.prevFree
  nextFree := (kept.front _ (by decide)).trans block.nextFree
  key := kept.key.trans block.key
  bare notFirst d := by
    rw [kept.node (by simp [notFirst])]
    exact block.bare notFirst d

/-- The part of a list behind its first block. -/
theorem FreeList.kept_rest (list : FreeList m pool size false prev bs)
    (kept : ∀ b ∈ bs, KeptBlock m m' b False) : FreeList m' pool size false prev bs := by
  induction bs generalizing prev with
  | nil => trivial
  | cons b rest ih =>
    simp only [List.forall_mem_cons] at kept
    exact ⟨list.1.kept (kept.1.mono False.elim), ih list.2 kept.2⟩

theorem FreeList.kept {rest : List Nat} (list : FreeList m pool size true prev (h :: rest))
    (first : KeptBlock m m' h True) (others : ∀ b ∈ rest, KeptBlock m m' b False) :
    FreeList m' pool size true prev (h :: rest) :=
  ⟨list.1.kept (first.mono fun _ => rfl), list.2.kept_rest others⟩

theorem FreeList.block (list : FreeList m pool size first prev bs) (member : b ∈ bs) :
    ∃ first prev next, ListedBlock m pool size first prev next b := by
  induction bs generalizing first prev with
  | nil => cases member
  | cons c rest ih =>
    rcases List.mem_cons.mp member with rfl | behind
    · exact ⟨_, _, _, list.1⟩
    · exact ih list.2 behind

end Kept

end Mftt
