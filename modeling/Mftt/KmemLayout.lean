import Mftt.ByteMemory
import Mftt.RbQueries

/-!
# Memory layout of the kernel heap

A pool is a header followed by blocks, and a block is a header followed by its
payload. While a block is free, the start of its payload holds two list pointers and
a node of the pool's tree, so that the same bytes are read through different types at
different times. Memory is therefore modelled byte by byte, and the fields of the two
structures are read and written at their offsets.

The functions of `rb_tree.c` work on nodes. They are run on the nodes that the memory
holds, and every byte of a node that they changed is written back.
-/

namespace Mftt

open ByteMemory

/-- The fields of `kmem_pool`. The processor number in the lock is left out. -/
inductive PoolField where
  | size | nextPool | free | freeTree | lock
  deriving DecidableEq, Repr

/-- The fields of `kmem_block`, with those of the tree node inside. -/
inductive BlockField where
  | cookie | type | size | pool | prevFree | nextFree | key | parentAndColor | L | R
  deriving DecidableEq, Repr

namespace PoolField

def offset : PoolField → Nat
  | size => 0
  | nextPool => 8
  | free => 16
  | freeTree => 24
  | lock => 32

def width : PoolField → Nat
  | lock => 1
  | _ => 8

end PoolField

namespace BlockField

def offset : BlockField → Nat
  | cookie => 0
  | type => 2
  | size => 4
  | pool => 8
  | prevFree => 16
  | nextFree => 24
  | key => 32
  | parentAndColor => 40
  | L => 48
  | R => 56

def width : BlockField → Nat
  | cookie => 2
  | type => 2
  | size => 4
  | _ => 8

end BlockField

/-- `sizeof(kmem_pool)`. -/
abbrev POOL_SIZE : Nat := 40

/-- `sizeof(kmem_block)`, which is also `minimal_block_size`. -/
abbrev BLOCK_SIZE : Nat := 64

/-- Offset of the tree node in a block. -/
abbrev NODE_OFFSET : Nat := 32

def poolField (m : Bytes) (pool : Nat) (f : PoolField) : Nat := load m (pool + f.offset) f.width

def setPoolField (m : Bytes) (pool : Nat) (f : PoolField) (value : Nat) : Bytes :=
  store m (pool + f.offset) f.width value

def blockField (m : Bytes) (block : Nat) (f : BlockField) : Nat :=
  load m (block + f.offset) f.width

def setBlockField (m : Bytes) (block : Nat) (f : BlockField) (value : Nat) : Bytes :=
  store m (block + f.offset) f.width value

/-- `block->f`. -/
def readBlock (m : Bytes) (block : Nat) (f : BlockField) : Except Fault Nat := do
  notNull block
  pure (blockField m block f)

/-- `block->f = value`. -/
def writeBlock (m : Bytes) (block : Nat) (f : BlockField) (value : Nat) : Except Fault Bytes := do
  notNull block
  pure (setBlockField m block f value)

variable {m : Bytes} {block : Nat}

@[simp] theorem read_block_of_ne (valid : block ≠ 0) (f : BlockField) :
    readBlock m block f = .ok (blockField m block f) := by
  simp [readBlock, valid]

@[simp] theorem write_block_of_ne (valid : block ≠ 0) (f : BlockField) (value : Nat) :
    writeBlock m block f value = .ok (setBlockField m block f value) := by
  simp [writeBlock, valid]

/-- A pointer to a node from a number. -/
def ptrOf (a : Nat) : NodePtr := .ofWord (BitVec.ofNat 64 a)

/-- `&block->mem.free.node`. -/
def nodeOf (block : Nat) : NodePtr := ptrOf (block + NODE_OFFSET)

/-- `container_of(node, kmem_block, mem.free.node)`. -/
def blockOf (node : NodePtr) : Nat := node.addr.toNat - NODE_OFFSET

/-- The node that the memory holds at an address. -/
def nodeAt (m : Bytes) (p : NodePtr) : RbNode where
  key := load m p.addr.toNat 8
  parentAndColor := BitVec.ofNat 64 (load m (p.addr.toNat + 8) 8)
  L := ptrOf (load m (p.addr.toNat + 16) 8)
  R := ptrOf (load m (p.addr.toNat + 24) 8)

/-- The tree of a pool. -/
def freeTree (m : Bytes) (pool : Nat) : RbTree :=
  ⟨nodeAt m, ptrOf (poolField m pool .freeTree)⟩

/-- The words of a node. -/
def nodeWord (n : RbNode) : Nat → Nat
  | 0 => n.key
  | 1 => n.parentAndColor.toNat
  | 2 => n.L.addr.toNat
  | _ => n.R.addr.toNat

/-- A byte of a node. -/
def nodeByte (n : RbNode) (k : Nat) : BitVec 8 :=
  BitVec.ofNat 8 (nodeWord n (k / 8) / 256 ^ (k % 8))

/-- Whether a node starts `k` bytes before `x` and has been changed. -/
def changedBefore (old new : NodePtr → RbNode) (x k : Nat) : Bool :=
  k ≤ x ∧ (ptrOf (x - k)).addr.toNat = x - k ∧ new (ptrOf (x - k)) ≠ old (ptrOf (x - k))

/-- Memory after the nodes `old` have become `new`. -/
def storeNodes (m : Bytes) (old new : NodePtr → RbNode) : Bytes := fun x =>
  match (List.range 32).find? (changedBefore old new x) with
  | some k => nodeByte (new (ptrOf (x - k))) k
  | none => m x

/-- Runs a function of `rb_tree.c` on the tree of a pool. -/
def onTree {α : Type} (m : Bytes) (pool : Nat) (f : RbTree → Except Fault (α × RbTree)) :
    Except Fault (α × Bytes) := do
  let t := freeTree m pool
  let (result, t') ← f t
  let m := storeNodes m t.nodes t'.nodes
  pure (result, setPoolField m pool .freeTree t'.root.addr.toNat)

section Fields

variable {pool b b' : Nat}

theorem BlockField.inside (f : BlockField) : f.offset + f.width ≤ 64 := by
  cases f <;> decide

theorem PoolField.inside (f : PoolField) : f.offset + f.width ≤ 40 := by
  cases f <;> decide

theorem BlockField.apart {f f' : BlockField} (other : f ≠ f') :
    f.offset + f.width ≤ f'.offset ∨ f'.offset + f'.width ≤ f.offset := by
  revert other
  cases f <;> cases f' <;> decide

theorem PoolField.apart {f f' : PoolField} (other : f ≠ f') :
    f.offset + f.width ≤ f'.offset ∨ f'.offset + f'.width ≤ f.offset := by
  revert other
  cases f <;> cases f' <;> decide

/-- Two blocks whose headers do not overlap. -/
def Apart (b b' : Nat) : Prop := b + 64 ≤ b' ∨ b' + 64 ≤ b

theorem block_set_same (f f' : BlockField) (value : Nat) :
    blockField (setBlockField m b f value) b f' =
      if f' = f then value % 256 ^ f.width else blockField m b f' := by
  by_cases same : f' = f
  · subst same
    rw [if_pos rfl]
    exact load_store ..
  · rw [if_neg same]
    have fields := BlockField.apart same
    exact load_store_apart m value (by omega)

theorem block_set_apart (f f' : BlockField) (value : Nat) (apart : Apart b b') :
    blockField (setBlockField m b f value) b' f' = blockField m b' f' := by
  have := f.inside
  have := f'.inside
  unfold Apart at apart
  exact load_store_apart m value (by omega)

theorem pool_set_same (f f' : PoolField) (value : Nat) :
    poolField (setPoolField m pool f value) pool f' =
      if f' = f then value % 256 ^ f.width else poolField m pool f' := by
  by_cases same : f' = f
  · subst same
    rw [if_pos rfl]
    exact load_store ..
  · rw [if_neg same]
    have fields := PoolField.apart same
    exact load_store_apart m value (by omega)

theorem block_set_pool (f : PoolField) (f' : BlockField) (value : Nat)
    (behind : pool + 40 ≤ b) :
    blockField (setPoolField m pool f value) b f' = blockField m b f' := by
  have := f.inside
  exact load_store_apart m value (by omega)

end Fields

section Pointers

variable {a b : Nat} {p : NodePtr}

/-- An even number below the end of the address space is the address of a node. -/
theorem ptr_of_addr (even : a % 2 = 0) (bound : a < 2 ^ 64) : (ptrOf a).addr.toNat = a := by
  have word : (BitVec.ofNat 64 a) &&& COLOR_MASK = 0#64 := by
    apply BitVec.eq_of_toNat_eq
    simp only [BitVec.toNat_and, BitVec.toNat_ofNat, Nat.mod_eq_of_lt bound, COLOR_MASK]
    rw [show (1 % 2 ^ 64 : Nat) = 1 from rfl, Nat.and_one_is_mod, even]
  have kept := RbNode.aligned_and_parent_mask ⟨BitVec.ofNat 64 a, word⟩
  simp only [ptrOf, NodePtr.ofWord]
  rw [kept, BitVec.toNat_ofNat, Nat.mod_eq_of_lt bound]

theorem ptr_of_to_nat (p : NodePtr) : ptrOf p.addr.toNat = p := by
  obtain ⟨addr, aligned⟩ := p
  have kept := RbNode.aligned_and_parent_mask ⟨addr, aligned⟩
  simp only [ptrOf, NodePtr.ofWord, BitVec.ofNat_toNat, BitVec.setWidth_eq, kept]

theorem node_of_addr (even : b % 2 = 0) (bound : b + 64 ≤ 2 ^ 64) :
    (nodeOf b).addr.toNat = b + 32 := by
  apply ptr_of_addr
  · simp only [NODE_OFFSET]
    omega
  · simp only [NODE_OFFSET]
    omega

theorem block_of_node (even : b % 2 = 0) (bound : b + 64 ≤ 2 ^ 64) :
    blockOf (nodeOf b) = b := by
  rw [blockOf, node_of_addr even bound]
  exact Nat.add_sub_cancel ..

end Pointers

/-- Blocks of a pool whose headers lie apart, behind the pool's own header. -/
structure Spread (pool : Nat) (blocks : Set Nat) : Prop where
  valid : pool ≠ 0
  behind : ∀ b ∈ blocks, pool + 40 ≤ b
  bound : ∀ b ∈ blocks, b + 64 ≤ 2 ^ 64
  even : ∀ b ∈ blocks, b % 2 = 0
  apart : ∀ a ∈ blocks, ∀ b ∈ blocks, a ≠ b → Apart a b

theorem Spread.mono {pool : Nat} {blocks fewer : Set Nat} (spread : Spread pool blocks)
    (subset : fewer ⊆ blocks) : Spread pool fewer where
  valid := spread.valid
  behind b member := spread.behind b (subset member)
  bound b member := spread.bound b (subset member)
  even b member := spread.even b (subset member)
  apart a left b right := spread.apart a (subset left) b (subset right)

section WriteBack

variable {pool b x k : Nat} {blocks : Set Nat} {new : NodePtr → RbNode}

/-- Only nodes of the given blocks differ from those in memory. -/
def NodesOnly (m : Bytes) (blocks : Set Nat) (new : NodePtr → RbNode) : Prop :=
  ∀ p, (∀ b ∈ blocks, p ≠ nodeOf b) → new p = nodeAt m p

section

variable (spread : Spread pool blocks) (frame : NodesOnly m blocks new)
include spread frame

theorem changed_in_block (changed : changedBefore (nodeAt m) new x k = true) :
    ∃ b ∈ blocks, x = b + 32 + k := by
  simp only [changedBefore, decide_eq_true_eq] at changed
  obtain ⟨below, address, differs⟩ := changed
  by_contra none
  simp only [not_exists, not_and] at none
  apply differs
  apply frame
  intro b member same
  have here := congrArg (fun p => p.addr.toNat) same
  simp only [address, node_of_addr (spread.even b member) (spread.bound b member)] at here
  exact none b member (by omega)

theorem store_nodes_outside (outside : ∀ b ∈ blocks, ¬(b + 32 ≤ x ∧ x < b + 64)) :
    storeNodes m (nodeAt m) new x = m x := by
  unfold storeNodes
  cases search : (List.range 32).find? (changedBefore (nodeAt m) new x) with
  | none => rfl
  | some k =>
    obtain ⟨b, member, rfl⟩ := changed_in_block spread frame (List.find?_some search)
    have small := List.mem_range.mp (List.mem_of_find?_eq_some search)
    exact absurd ⟨by omega, by omega⟩ (outside b member)

variable (member : b ∈ blocks)
include member

theorem store_nodes_inside (changed : new (nodeOf b) ≠ nodeAt m (nodeOf b)) (small : k < 32) :
    storeNodes m (nodeAt m) new (b + 32 + k) = nodeByte (new (nodeOf b)) k := by
  have address := node_of_addr (spread.even b member) (spread.bound b member)
  have back : b + 32 + k - k = b + NODE_OFFSET := Nat.add_sub_cancel ..
  have found : changedBefore (nodeAt m) new (b + 32 + k) k = true := by
    simp only [changedBefore, decide_eq_true_eq, back]
    exact ⟨by omega, address, changed⟩
  unfold storeNodes
  cases search : (List.range 32).find? (changedBefore (nodeAt m) new (b + 32 + k)) with
  | none => exact absurd found (List.find?_eq_none.mp search k (List.mem_range.mpr small))
  | some j =>
    -- the nodes lie apart, so that only one of them can contain the byte
    obtain ⟨b', member', position⟩ := changed_in_block spread frame (List.find?_some search)
    have least := List.mem_range.mp (List.mem_of_find?_eq_some search)
    obtain rfl : b = b' := by
      by_contra other
      have apart := spread.apart b member b' member' other
      unfold Apart at apart
      omega
    obtain rfl : k = j := by omega
    change nodeByte (new (ptrOf (b + 32 + k - k))) k = _
    rw [back]
    rfl

theorem store_nodes_same (same : new (nodeOf b) = nodeAt m (nodeOf b)) (low : b + 32 ≤ x)
    (high : x < b + 64) : storeNodes m (nodeAt m) new x = m x := by
  unfold storeNodes
  cases search : (List.range 32).find? (changedBefore (nodeAt m) new x) with
  | none => rfl
  | some k =>
    have found := List.find?_some search
    obtain ⟨b', member', rfl⟩ := changed_in_block spread frame found
    have small := List.mem_range.mp (List.mem_of_find?_eq_some search)
    obtain rfl : b = b' := by
      by_contra other
      have apart := spread.apart b member b' member' other
      unfold Apart at apart
      omega
    have back : b + 32 + k - k = b + NODE_OFFSET := Nat.add_sub_cancel ..
    simp only [changedBefore, decide_eq_true_eq, back] at found
    exact absurd same found.2.2

theorem load_store_nodes (changed : new (nodeOf b) ≠ nodeAt m (nodeOf b)) {w : Nat} (few : w < 4) :
    load (storeNodes m (nodeAt m) new) (b + 32 + 8 * w) 8 =
      nodeWord (new (nodeOf b)) w % 256 ^ 8 := by
  apply load_of_bytes
  intro j short
  have byte := store_nodes_inside spread frame member changed (k := 8 * w + j) (by omega)
  rw [Nat.add_assoc, byte, nodeByte]
  have quotient : (8 * w + j) / 8 = w := by omega
  have remainder : (8 * w + j) % 8 = j := by omega
  rw [quotient, remainder]

/-- Memory holds the new nodes afterwards. -/
theorem node_at_store_nodes (key : (new (nodeOf b)).key = (nodeAt m (nodeOf b)).key) :
    nodeAt (storeNodes m (nodeAt m) new) (nodeOf b) = new (nodeOf b) := by
  have address := node_of_addr (spread.even b member) (spread.bound b member)
  by_cases changed : new (nodeOf b) = nodeAt m (nodeOf b)
  · have kept : ∀ x, b + 32 ≤ x → x < b + 64 → storeNodes m (nodeAt m) new x = m x := fun x =>
      store_nodes_same spread frame member changed
    have same : ∀ d, d ≤ 24 → load (storeNodes m (nodeAt m) new) (b + 32 + d) 8 =
        load m (b + 32 + d) 8 := by
      intro d small
      apply load_congr
      intro x inside
      simp only [span, Set.mem_Ico] at inside
      exact kept x (by omega) (by omega)
    rw [changed]
    simp only [nodeAt, address, same 8 (by omega), same 16 (by omega), same 24 (by omega)]
    simpa using same 0 (by omega)
  · have word : ∀ w, w < 4 → load (storeNodes m (nodeAt m) new) (b + 32 + 8 * w) 8 =
        nodeWord (new (nodeOf b)) w % 256 ^ 8 := fun w =>
      load_store_nodes spread frame member changed
    have first : load (storeNodes m (nodeAt m) new) (b + 32) 8 = (new (nodeOf b)).key := by
      have bound : (new (nodeOf b)).key < 256 ^ 8 := by
        rw [key]
        exact load_lt ..
      exact (word 0 (by omega)).trans (Nat.mod_eq_of_lt bound)
    have wordFits : ∀ w : BitVec 64, w.toNat % 256 ^ 8 = w.toNat := fun w =>
      Nat.mod_eq_of_lt (w.isLt.trans_le (by decide))
    have pointer : ∀ p : NodePtr, ptrOf (p.addr.toNat % 256 ^ 8) = p := by
      intro p
      rw [wordFits, ptr_of_to_nat]
    have second : BitVec.ofNat 64 ((new (nodeOf b)).parentAndColor.toNat % 256 ^ 8) =
        (new (nodeOf b)).parentAndColor := by
      rw [wordFits]
      simp
    have fields : nodeAt (storeNodes m (nodeAt m) new) (nodeOf b) =
        ⟨(new (nodeOf b)).key, (new (nodeOf b)).parentAndColor, (new (nodeOf b)).L,
          (new (nodeOf b)).R⟩ := by
      simp only [nodeAt, address, first, RbNode.mk.injEq, true_and]
      refine ⟨?_, ?_, ?_⟩
      · rw [word 1 (by omega)]
        exact second
      · rw [word 2 (by omega)]
        exact pointer _
      · rw [word 3 (by omega)]
        exact pointer _
    exact fields

end

theorem NodePtr.even (p : NodePtr) : p.addr.toNat % 2 = 0 := by
  have low := congrArg BitVec.toNat p.aligned
  simp only [BitVec.toNat_and, COLOR_MASK, BitVec.toNat_ofNat, Nat.reducePow, Nat.reduceMod,
    Nat.and_one_is_mod] at low
  exact low

/-- The left pointer of a node is a pointer, without a colour bit. -/
def EvenLeft (m : Bytes) (b : Nat) : Prop := blockField m b .L % 2 = 0

theorem EvenLeft.zero_bytes (left : EvenLeft m b) (even : b % 2 = 0) (bound : b + 64 ≤ 2 ^ 64)
    (null : (nodeAt m (nodeOf b)).L = .null) : ∀ x ∈ span (b + 48) 8, m x = 0#8 := by
  have address := congrArg (fun p => p.addr.toNat) null
  simp only [nodeAt, node_of_addr even bound] at address
  have small : blockField m b .L < 2 ^ 64 := (load_lt m (b + 48) 8).trans_le (by decide)
  have zero : blockField m b .L = 0 := (ptr_of_addr left small).symm.trans address
  intro x inside
  simp only [span, Set.mem_Ico] at inside
  have byte := load_byte m (a := b + 48) (n := 8) (k := x - (b + 48)) (by omega)
  rw [show load m (b + 48) 8 = 0 from zero, Nat.zero_div] at byte
  rw [show x = b + 48 + (x - (b + 48)) by omega, ← byte]

theorem EvenLeft.congr {m' : Bytes} (even : EvenLeft m b)
    (same : blockField m' b .L = blockField m b .L) : EvenLeft m' b :=
  (congrArg (· % 2) same).trans even

theorem store_nodes_even (spread : Spread pool blocks) (frame : NodesOnly m blocks new)
    (member : b ∈ blocks) (even : EvenLeft m b) :
    EvenLeft (storeNodes m (nodeAt m) new) b := by
  by_cases changed : new (nodeOf b) = nodeAt m (nodeOf b)
  · have same : blockField (storeNodes m (nodeAt m) new) b .L = blockField m b .L := by
      apply load_congr
      intro x inside
      simp only [span, BlockField.offset, BlockField.width, Set.mem_Ico] at inside
      exact store_nodes_same spread frame member changed (by omega) (by omega)
    exact even.congr same
  · have word := load_store_nodes spread frame member changed (w := 2) (by decide)
    have fits : (new (nodeOf b)).L.addr.toNat % 256 ^ 8 = (new (nodeOf b)).L.addr.toNat :=
      Nat.mod_eq_of_lt ((new (nodeOf b)).L.addr.isLt.trans_le (by decide))
    have place : b + 32 + 8 * 2 = b + BlockField.L.offset := Nat.add_assoc b 32 16
    have held : blockField (storeNodes m (nodeAt m) new) b .L = (new (nodeOf b)).L.addr.toNat := by
      rw [place, show nodeWord (new (nodeOf b)) 2 = (new (nodeOf b)).L.addr.toNat from rfl,
        fits] at word
      exact word
    exact (congrArg (· % 2) held).trans (new (nodeOf b)).L.even

/-- The bytes that the functions on a pool's tree may change. -/
def treeScope (pool : Nat) (blocks : Set Nat) : Set Nat :=
  span (pool + 24) 8 ∪ ⋃ b ∈ blocks, span (b + 32) 32

/-- The effect of a function on a pool's tree, as seen by a reader of the memory. -/
structure TreeWritten (m : Bytes) (pool : Nat) (blocks : Set Nat) (t' : RbTree) (m' : Bytes) :
    Prop where
  root : (freeTree m' pool).root = t'.root
  nodes : ∀ b ∈ blocks, nodeAt m' (nodeOf b) = t'.nodes (nodeOf b)
  changed : ChangedIn (treeScope pool blocks) m m'
  same : ∀ b ∈ blocks, t'.nodes (nodeOf b) = nodeAt m (nodeOf b) → ∀ x ∈ span (b + 32) 32, m' x = m x
  even : ∀ b ∈ blocks, EvenLeft m b → EvenLeft m' b

/-- Running a function that changes nodes of the given blocks only, and no key. -/
theorem on_tree_spec {α : Type} {f : RbTree → Except Fault (α × RbTree)} {result : α}
    {t' : RbTree} {touched : Set NodePtr} (spread : Spread pool blocks)
    (returns : f (freeTree m pool) = .ok (result, t')) (keeps : Keeps (freeTree m pool) t' touched)
    (inside : ∀ p ∈ touched, ∃ b ∈ blocks, p = nodeOf b) :
    ∃ m', onTree m pool f = .ok (result, m') ∧ TreeWritten m pool blocks t' m' := by
  have frame : NodesOnly m blocks t'.nodes := by
    intro p outside
    apply keeps.others
    intro member
    obtain ⟨b, known, same⟩ := inside p member
    exact outside b known same
  refine ⟨setPoolField (storeNodes m (nodeAt m) t'.nodes) pool .freeTree t'.root.addr.toNat,
    ?_, ?_, ?_, ?_, fun b member same x inside => ?_, fun b member even => ?_⟩
  · simp only [onTree, returns, bind_ok, pure_eq_ok]
    rfl
  · have bound : t'.root.addr.toNat < 256 ^ PoolField.freeTree.width := t'.root.addr.isLt
    simp only [freeTree, pool_set_same, if_true, Nat.mod_eq_of_lt bound, ptr_of_to_nat]
  · intro b member
    have held := node_at_store_nodes spread frame member (keeps.keys _)
    rw [← held]
    have address := node_of_addr (spread.even b member) (spread.bound b member)
    have front := spread.behind b member
    have kept : ∀ d, load (setPoolField (storeNodes m (nodeAt m) t'.nodes) pool .freeTree
        t'.root.addr.toNat) (b + 32 + d) 8 =
        load (storeNodes m (nodeAt m) t'.nodes) (b + 32 + d) 8 := by
      intro d
      apply load_store_apart
      simp only [PoolField.offset, PoolField.width]
      omega
    simp only [nodeAt, address, kept 8, kept 16, kept 24, RbNode.mk.injEq, and_true]
    exact kept 0
  · intro x outside
    simp only [treeScope, Set.mem_union, Set.mem_iUnion, not_or, not_exists] at outside
    have first : setPoolField (storeNodes m (nodeAt m) t'.nodes) pool .freeTree
        t'.root.addr.toNat x = storeNodes m (nodeAt m) t'.nodes x :=
      changed_store _ _ _ _ x outside.1
    refine first.trans (store_nodes_outside spread frame fun b member inside => ?_)
    exact outside.2 b member ⟨inside.1, by omega⟩
  · have front := spread.behind b member
    simp only [span, Set.mem_Ico] at inside
    have first : setPoolField (storeNodes m (nodeAt m) t'.nodes) pool .freeTree
        t'.root.addr.toNat x = storeNodes m (nodeAt m) t'.nodes x := by
      apply changed_store
      simp only [span, PoolField.offset, PoolField.width, Set.mem_Ico]
      omega
    exact first.trans (store_nodes_same spread frame member same (by omega) (by omega))
  · exact (store_nodes_even spread frame member even).congr
      (block_set_pool _ _ _ (spread.behind b member))

end WriteBack

end Mftt
