import Mathlib.Logic.Function.Basic
import Mftt.Fault
import Mftt.RedBlack

/-!
# Intrusive red-black trees

`rb_tree.c` links nodes that its callers own. A node stores its parent and its
colour in one word: nodes are aligned, so the lowest bit of a node's address is free.
The code comes in mirror images; here each pair is one definition with a direction,
and the two members are named after the source.

Every access to a node goes through a check of the pointer, so a NULL pointer that is
followed shows as a fault.
-/

namespace Mftt

open RedBlack

abbrev PARENT_MASK : BitVec 64 := 0xFFFFFFFFFFFFFFFE#64
abbrev COLOR_MASK : BitVec 64 := 0x1#64

/-- `rb_node *`. The nodes are aligned to eight bytes; the code relies on the lowest
bit only. -/
structure NodePtr where
  addr : BitVec 64
  aligned : addr &&& COLOR_MASK = 0#64
  deriving DecidableEq

/-- The pointer to a word's address, without its colour bit. -/
def NodePtr.ofWord (word : BitVec 64) : NodePtr where
  addr := word &&& PARENT_MASK
  aligned := by
    rw [BitVec.and_assoc]
    exact BitVec.and_zero

def NodePtr.null : NodePtr := ⟨0#64, rfl⟩

/-- `struct _rb_node`. -/
structure RbNode where
  key : Nat
  parentAndColor : BitVec 64
  L : NodePtr
  R : NodePtr
  deriving DecidableEq

/-- `RB_BLACK` and `RB_RED`. -/
def colorBit : Color → BitVec 64
  | .black => 0#64
  | .red => 1#64

namespace RbNode

/-- `GET_PARENT`. -/
def getParent (n : RbNode) : NodePtr := .ofWord n.parentAndColor

/-- `SET_PARENT`. -/
def setParent (p : NodePtr) (n : RbNode) : RbNode :=
  { n with parentAndColor := (n.parentAndColor &&& COLOR_MASK) ||| p.addr }

/-- `GET_COLOR`. -/
def getColor (n : RbNode) : Color :=
  if n.parentAndColor &&& COLOR_MASK = colorBit .red then .red else .black

/-- `SET_COLOR`. -/
def setColor (c : Color) (n : RbNode) : RbNode :=
  { n with parentAndColor := (n.parentAndColor &&& PARENT_MASK) ||| colorBit c }

/-- `n->L` or `n->R`. -/
def child (n : RbNode) : Dir → NodePtr
  | .left => n.L
  | .right => n.R

def setChild (d : Dir) (p : NodePtr) (n : RbNode) : RbNode :=
  match d with
  | .left => { n with L := p }
  | .right => { n with R := p }

section Packing

theorem aligned_and_parent_mask (p : NodePtr) : p.addr &&& PARENT_MASK = p.addr := by
  have parts : p.addr = (p.addr &&& COLOR_MASK) ||| (p.addr &&& ~~~COLOR_MASK) := by
    rw [← BitVec.and_or_distrib_left, BitVec.or_not_self, BitVec.and_allOnes]
  rw [p.aligned, BitVec.zero_or] at parts
  exact parts.symm

theorem color_bit_and_parent_mask (c : Color) : colorBit c &&& PARENT_MASK = 0#64 := by
  cases c <;> decide

theorem masks_apart (word : BitVec 64) : word &&& COLOR_MASK &&& PARENT_MASK = 0#64 := by
  rw [BitVec.and_assoc]
  exact BitVec.and_zero

theorem masks_apart' (word : BitVec 64) : word &&& PARENT_MASK &&& COLOR_MASK = 0#64 := by
  rw [BitVec.and_assoc]
  exact BitVec.and_zero

end Packing

section Fields

variable (n : RbNode) (p : NodePtr) (c : Color) (d e : Dir)

@[simp] theorem get_parent_set_parent : (n.setParent p).getParent = p := by
  simp only [getParent, setParent, NodePtr.ofWord, BitVec.and_or_distrib_right, masks_apart,
    BitVec.zero_or, aligned_and_parent_mask]

@[simp] theorem get_color_set_parent : (n.setParent p).getColor = n.getColor := by
  simp only [getColor, setParent, BitVec.and_or_distrib_right, BitVec.and_assoc,
    BitVec.and_self, p.aligned, BitVec.or_zero]

@[simp] theorem get_parent_set_color : (n.setColor c).getParent = n.getParent := by
  simp only [getParent, setColor, NodePtr.ofWord, BitVec.and_or_distrib_right, BitVec.and_assoc,
    BitVec.and_self, color_bit_and_parent_mask, BitVec.or_zero]

@[simp] theorem get_color_set_color : (n.setColor c).getColor = c := by
  simp only [getColor, setColor, BitVec.and_or_distrib_right, masks_apart']
  cases c <;> decide

@[simp] theorem get_parent_set_child : (n.setChild d p).getParent = n.getParent := by
  cases d <;> rfl

@[simp] theorem get_color_set_child : (n.setChild d p).getColor = n.getColor := by
  cases d <;> rfl

@[simp] theorem child_set_parent : (n.setParent p).child d = n.child d := by cases d <;> rfl

@[simp] theorem child_set_color : (n.setColor c).child d = n.child d := by cases d <;> rfl

@[simp] theorem child_set_child :
    (n.setChild d p).child e = if e = d then p else n.child e := by
  cases d <;> cases e <;> rfl

@[simp] theorem key_set_parent : (n.setParent p).key = n.key := rfl

@[simp] theorem key_set_color : (n.setColor c).key = n.key := rfl

@[simp] theorem key_set_child : (n.setChild d p).key = n.key := by cases d <;> rfl

end Fields

end RbNode

/-- `rb_tree`, with the memory that holds the nodes. -/
structure RbTree where
  nodes : NodePtr → RbNode
  root : NodePtr

namespace RbTree

/-- Reads a node through its pointer. -/
def get (t : RbTree) (p : NodePtr) : Except Fault RbNode :=
  if p = .null then .error .nullPointer else .ok (t.nodes p)

/-- The tree after one node has been changed. -/
def update (t : RbTree) (p : NodePtr) (f : RbNode → RbNode) : RbTree :=
  { t with nodes := Function.update t.nodes p (f (t.nodes p)) }

/-- Writes to a node through its pointer. -/
def modify (t : RbTree) (p : NodePtr) (f : RbNode → RbNode) : Except Fault RbTree :=
  if p = .null then .error .nullPointer else .ok (t.update p f)

@[simp] theorem get_of_ne {t : RbTree} {p : NodePtr} (valid : p ≠ .null) :
    t.get p = .ok (t.nodes p) := if_neg valid

@[simp] theorem modify_of_ne {t : RbTree} {p : NodePtr} {f : RbNode → RbNode}
    (valid : p ≠ .null) : t.modify p f = .ok (t.update p f) := if_neg valid

end RbTree

/-- Text of the assertion in a rotation. -/
def rotateMessage : Dir → String
  | .left => "Right must be valid."
  | .right => "Left must be valid."

/-- `if (child) SET_PARENT(child, parent)`. -/
def adopt (t : RbTree) (child parent : NodePtr) : Except Fault RbTree :=
  if child ≠ .null then t.modify child (·.setParent parent) else pure t

/-- Makes the place of `old` under `parent` point to `new`: the child pointer in
direction `d` if that is `old`, the other child pointer if not, or the root. -/
def relink (d : Dir) (t : RbTree) (parent old new : NodePtr) : Except Fault RbTree := do
  if parent ≠ .null then
    if (← t.get parent).child d = old then t.modify parent (·.setChild d new)
    else t.modify parent (·.setChild d.opp new)
  else pure { t with root := new }

/-- A rotation that moves `node` down in direction `d`; its child in the other
direction takes its place. -/
def rotate (d : Dir) (t : RbTree) (node : NodePtr) : Except Fault RbTree := do
  let n ← t.get node
  let up := n.child d.opp
  assert (up ≠ .null) (rotateMessage d)
  let parent := n.getParent
  let inner := (← t.get up).child d
  let t ← t.modify node (·.setChild d.opp inner)
  let t ← adopt t inner node
  let t ← t.modify up (·.setChild d node)
  let t ← t.modify up (·.setParent parent)
  let t ← relink d t parent node up
  t.modify node (·.setParent up)

def rbRotateLeft : RbTree → NodePtr → Except Fault RbTree := rotate .left

def rbRotateRight : RbTree → NodePtr → Except Fault RbTree := rotate .right

/-- The test `p && GET_COLOR(p) == RB_RED`. -/
def isRed (t : RbTree) (p : NodePtr) : Except Fault Bool :=
  if p = .null then pure false else do pure ((← t.get p).getColor = .red)

/-- The test `!p || GET_COLOR(p) == RB_BLACK`. -/
def isBlack (t : RbTree) (p : NodePtr) : Except Fault Bool :=
  if p = .null then pure true else do pure ((← t.get p).getColor = .black)

/-- One turn of `rb_insert_fixup` whose parent is the child in direction `d` of its own
parent. The result is the node of the next turn. -/
def insertFixupSide (d : Dir) (t : RbTree) (node parent gparent : NodePtr) :
    Except Fault (NodePtr × RbTree) := do
  let uncle := (← t.get gparent).child d.opp
  if ← isRed t uncle then
    let t ← t.modify uncle (·.setColor .black)
    let t ← t.modify parent (·.setColor .black)
    let t ← t.modify gparent (·.setColor .red)
    pure (gparent, t)
  else
    let (node, parent, t) ← if (← t.get parent).child d.opp = node then do
        let t ← rotate d t parent
        pure (parent, node, t)
      else pure (node, parent, t)
    let t ← t.modify parent (·.setColor .black)
    let t ← t.modify gparent (·.setColor .red)
    let t ← rotate d.opp t gparent
    pure (node, t)

/-- The loop of `rb_insert_fixup`, for a bounded number of turns. -/
def insertFixupLoop : Nat → RbTree → NodePtr → Except Fault RbTree
  | 0, _, _ => .error .unfinished
  | turns + 1, t, node => do
    let parent := (← t.get node).getParent
    if parent = .null then pure t
    else
      let p ← t.get parent
      if p.getColor ≠ .red then pure t
      else
        let gparent := p.getParent
        let g ← t.get gparent
        let (node, t) ← if parent = g.L then insertFixupSide .left t node parent gparent
          else if parent = g.R then insertFixupSide .right t node parent gparent
          else kpanic "!"
        insertFixupLoop turns t node

/-- `rb_insert_fixup`. -/
def rbInsertFixup (turns : Nat) (t : RbTree) (node : NodePtr) : Except Fault RbTree := do
  let t ← insertFixupLoop turns t node
  t.modify t.root (·.setColor .black)

/-- The loop of `rb_insert` that looks for the place of a new node: the node with an
equal key, or the parent of the new node. -/
def insertPlace : Nat → RbTree → NodePtr → NodePtr → NodePtr → Except Fault (NodePtr ⊕ NodePtr)
  | 0, _, _, _, _ => .error .unfinished
  | turns + 1, t, n, y, x =>
    if x = .null then pure (.inr y)
    else do
      let new ← t.get n
      let here ← t.get x
      if new.key = here.key then pure (.inl x)
      else if new.key < here.key then insertPlace turns t n x here.L
      else insertPlace turns t n x here.R

/-- `n` becomes the right child of `y` if its key is larger, else the left one. -/
def hang (t : RbTree) (n y : NodePtr) : Except Fault RbTree := do
  if (← t.get y).key < (← t.get n).key then t.modify y (·.setChild .right n)
  else t.modify y (·.setChild .left n)

/-- The end of `rb_insert` for a tree that is not empty: `n` becomes a red child of `y`. -/
def linkLeaf (turns : Nat) (t : RbTree) (n y : NodePtr) : Except Fault RbTree := do
  let t ← t.modify n (·.setParent y)
  let t ← hang t n y
  let t ← t.modify n (·.setColor .red)
  rbInsertFixup turns t n

/-- `rb_insert`. -/
def rbInsert (turns : Nat) (t : RbTree) (n : NodePtr) : Except Fault (NodePtr × RbTree) := do
  let t ← t.modify n (·.setChild .right .null)
  let t ← t.modify n (·.setChild .left .null)
  let t ← t.modify n (·.setParent .null)
  if t.root = .null then
    let t ← t.modify n (·.setColor .black)
    let t ← rbInsertFixup turns { t with root := n } n
    pure (.null, t)
  else
    match ← insertPlace turns t n .null t.root with
    | .inl x => pure (x, t)
    | .inr y =>
      let t ← linkLeaf turns t n y
      pure (.null, t)

/-- State of the loop of `rb_remove_fixup`; `stop` tells that it was left by `break`. -/
structure RemoveCursor where
  stop : Bool
  node : NodePtr
  parent : NodePtr

/-- The first part of a turn of `rb_remove_fixup` whose node is the child in direction
`d` of its parent: a red sibling is turned above the parent. The result is the
sibling. -/
def liftSibling (d : Dir) (t : RbTree) (parent : NodePtr) : Except Fault (NodePtr × RbTree) := do
  let other := (← t.get parent).child d.opp
  if (← t.get other).getColor = .red then
    let t ← t.modify other (·.setColor .black)
    let t ← t.modify parent (·.setColor .red)
    let t ← rotate d t parent
    pure ((← t.get parent).child d.opp, t)
  else pure (other, t)

/-- The part that makes the far child of the sibling red, if it is black. -/
def straighten (d : Dir) (t : RbTree) (parent other : NodePtr) :
    Except Fault (NodePtr × RbTree) := do
  let o ← t.get other
  if ← isBlack t (o.child d.opp) then
    let t ← t.modify (o.child d) (·.setColor .black)
    let t ← t.modify other (·.setColor .red)
    let t ← rotate d.opp t other
    pure ((← t.get parent).child d.opp, t)
  else pure (other, t)

/-- The last part: the sibling takes the place and the colour of the parent. -/
def takeOver (d : Dir) (t : RbTree) (parent other : NodePtr) : Except Fault RbTree := do
  let color := (← t.get parent).getColor
  let t ← t.modify other (·.setColor color)
  let t ← t.modify parent (·.setColor .black)
  let far := (← t.get other).child d.opp
  let t ← t.modify far (·.setColor .black)
  rotate d t parent

/-- The rest of a turn, around a black sibling. -/
def borrowSibling (d : Dir) (t : RbTree) (parent other : NodePtr) :
    Except Fault (RemoveCursor × RbTree) := do
  let o ← t.get other
  let leftBlack ← isBlack t o.L
  let rightBlack ← isBlack t o.R
  if leftBlack ∧ rightBlack then
    let t ← t.modify other (·.setColor .red)
    pure ({ stop := false, node := parent, parent := (← t.get parent).getParent }, t)
  else
    let (other, t) ← straighten d t parent other
    let t ← takeOver d t parent other
    pure ({ stop := true, node := t.root, parent := parent }, t)

/-- One turn of `rb_remove_fixup` whose node is the child in direction `d` of its
parent. -/
def removeFixupSide (d : Dir) (t : RbTree) (parent : NodePtr) :
    Except Fault (RemoveCursor × RbTree) := do
  let (other, t) ← liftSibling d t parent
  borrowSibling d t parent other

/-- The loop of `rb_remove_fixup`, for a bounded number of turns. -/
def removeFixupLoop : Nat → RbTree → NodePtr → NodePtr → Except Fault (NodePtr × RbTree)
  | 0, _, _, _ => .error .unfinished
  | turns + 1, t, node, parent => do
    let black ← isBlack t node
    if black ∧ node ≠ t.root then
      let d := if (← t.get parent).L = node then Dir.left else Dir.right
      let (cursor, t) ← removeFixupSide d t parent
      if cursor.stop then pure (cursor.node, t)
      else removeFixupLoop turns t cursor.node cursor.parent
    else pure (node, t)

/-- `rb_remove_fixup`. -/
def rbRemoveFixup (turns : Nat) (t : RbTree) (node parent : NodePtr) : Except Fault RbTree := do
  let (node, t) ← removeFixupLoop turns t node parent
  if node ≠ .null then t.modify node (·.setColor .black) else pure t

/-- The loop of `rb_remove` that goes left as far as possible. -/
def leftmost : Nat → RbTree → NodePtr → Except Fault NodePtr
  | 0, _, _ => .error .unfinished
  | turns + 1, t, node => do
    let left := (← t.get node).L
    if left ≠ .null then leftmost turns t left else pure node

/-- The part of `rb_remove` for a node with at most one child. The result is what the
repair starts from. -/
def spliceOut (t : RbTree) (node child : NodePtr) :
    Except Fault (NodePtr × NodePtr × Color × RbTree) := do
  let n ← t.get node
  let parent := n.getParent
  let color := n.getColor
  let t ← adopt t child parent
  let t ← relink .left t parent node child
  pure (child, parent, color, t)

/-- Takes the successor `node` out of the right subtree of `old` and hangs that subtree
below it. The result is the node that has `child` in the place of `node`. -/
def unlinkSuccessor (t : RbTree) (old node child parent : NodePtr) :
    Except Fault (NodePtr × RbTree) := do
  if parent = old then pure (node, t)
  else
    let t ← adopt t child parent
    let t ← t.modify parent (·.setChild .left child)
    let right := (← t.get old).R
    let t ← t.modify node (·.setChild .right right)
    let t ← t.modify right (·.setParent node)
    pure (parent, t)

/-- `node` gets the parent, the colour and the left subtree of `old`. -/
def takePlace (t : RbTree) (old node : NodePtr) : Except Fault RbTree := do
  let o ← t.get old
  let t ← t.modify node (fun n => { n with parentAndColor := o.parentAndColor })
  let t ← t.modify node (·.setChild .left o.L)
  t.modify o.L (·.setParent node)

/-- The part of `rb_remove` for a node with two children: its successor is unlinked and
takes its place and colour. -/
def spliceSuccessor (turns : Nat) (t : RbTree) (old : NodePtr) :
    Except Fault (NodePtr × NodePtr × Color × RbTree) := do
  let o ← t.get old
  let node ← leftmost turns t o.R
  let t ← relink .left t o.getParent old node
  let n ← t.get node
  let child := n.R
  let color := n.getColor
  let (parent, t) ← unlinkSuccessor t old node child n.getParent
  let t ← takePlace t old node
  pure (child, parent, color, t)

/-- The part of `rb_remove` that takes a node out of the tree. The result is the child
that moved up, its parent, the colour that left its place, and the tree. -/
def splice (turns : Nat) (t : RbTree) (node : NodePtr) :
    Except Fault (NodePtr × NodePtr × Color × RbTree) := do
  let n ← t.get node
  if n.L = .null then spliceOut t node n.R
  else if n.R = .null then spliceOut t node n.L
  else spliceSuccessor turns t node

/-- `rb_remove`. -/
def rbRemove (turns : Nat) (t : RbTree) (node : NodePtr) : Except Fault RbTree := do
  let (child, parent, color, t) ← splice turns t node
  if color = .black then rbRemoveFixup turns t child parent else pure t

end Mftt
