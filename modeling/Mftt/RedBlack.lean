import Mathlib.Data.List.Nodup

/-!
# Red-black trees and paths

Coloured binary trees over an arbitrary type of values, with the two balance
conditions as one inductive predicate. A position in a tree is a focus and the path
from it to the root. Directions are data, so that mirror images are one statement:
the builder `side` puts its first subtree in the given direction.

The two repair procedures climb a path. One starts with a red focus that may have a
red parent, the other with a focus whose black height is one too small. Each keeps
the values in order and ends in a balanced tree.
-/

namespace RedBlack

universe u

inductive Color where
  | red
  | black
  deriving DecidableEq, Repr

inductive Dir where
  | left
  | right
  deriving DecidableEq, Repr

/-- The other direction. -/
def Dir.opp : Dir → Dir
  | left => right
  | right => left

@[simp] theorem Dir.opp_opp (d : Dir) : d.opp.opp = d := by cases d <;> rfl

@[simp] theorem Dir.opp_ne (d : Dir) : d.opp ≠ d := by cases d <;> decide

@[simp] theorem Dir.ne_opp (d : Dir) : d ≠ d.opp := by cases d <;> decide

theorem Dir.eq_or_opp (d e : Dir) : e = d ∨ e = d.opp := by cases d <;> cases e <;> decide

inductive ColorTree (α : Type u) where
  | nil
  | node (color : Color) (l : ColorTree α) (value : α) (r : ColorTree α)
  deriving DecidableEq, Repr

variable {α : Type u}

variable {t : ColorTree α} {n : Nat}

namespace ColorTree

/-- Values from left to right. -/
def inorder : ColorTree α → List α
  | nil => []
  | node _ l x r => l.inorder ++ x :: r.inorder

/-- The most nodes on a way down. -/
def depth : ColorTree α → Nat
  | nil => 0
  | node _ l _ r => max l.depth r.depth + 1

/-- Colour of the root; an empty tree is black. -/
def color : ColorTree α → Color
  | nil => .black
  | node c _ _ _ => c

/-- The same tree with a black root. -/
def blacken : ColorTree α → ColorTree α
  | nil => nil
  | node _ l x r => node .black l x r

/-- A node with subtree `a` in direction `d` and subtree `b` in the other. -/
def side (d : Dir) (c : Color) (a : ColorTree α) (x : α) (b : ColorTree α) : ColorTree α :=
  match d with
  | .left => node c a x b
  | .right => node c b x a

section

variable (d : Dir) (c : Color) (a b : ColorTree α) (x : α)
include d c a b x

@[simp] theorem color_side : (side d c a x b).color = c := by
  cases d <;> rfl

@[simp] theorem blacken_side : (side d c a x b).blacken = side d .black a x b := by
  cases d <;> rfl

theorem side_opp : side d.opp c a x b = side d c b x a := by
  cases d <;> rfl

end

@[simp] theorem inorder_blacken (t : ColorTree α) : t.blacken.inorder = t.inorder := by
  cases t <;> rfl

/-- Every tree that is not empty is a node in either direction. -/
theorem exists_side (d : Dir) (nonempty : t ≠ nil) : ∃ a x b, t = side d t.color a x b := by
  cases t with
  | nil => exact absurd rfl nonempty
  | node c l x r =>
    cases d with
    | left => exact ⟨l, x, r, rfl⟩
    | right => exact ⟨r, x, l, rfl⟩

/-- Rotation keeps the order of the values, in either direction. -/
theorem inorder_rotate (d : Dir) (c c' e e' : Color) (s t u : ColorTree α) (x y : α) :
    (side d c' (side d c s x t) y u).inorder = (side d e s x (side d e' t y u)).inorder := by
  cases d <;> simp [side, inorder]

/-- The values of a node depend on its subtrees only through their values. -/
theorem inorder_side_congr (d : Dir) (c c' : Color) {a a' b b' : ColorTree α} (x : α)
    (left : a.inorder = a'.inorder) (right : b.inorder = b'.inorder) :
    (side d c a x b).inorder = (side d c' a' x b').inorder := by
  cases d <;> simp [side, inorder, left, right]

/-- `t` has the root colour `c` and the black height `n`, no red node has a red child. -/
inductive Balanced : ColorTree α → Color → Nat → Prop where
  | nil : Balanced nil .black 0
  | red {l r : ColorTree α} {x : α} {n : Nat} :
      Balanced l .black n → Balanced r .black n → Balanced (node .red l x r) .red n
  | black {l r : ColorTree α} {x : α} {c c' : Color} {n : Nat} :
      Balanced l c n → Balanced r c' n → Balanced (node .black l x r) .black (n + 1)

namespace Balanced

variable {a b : ColorTree α} {x : α} {c c' : Color} {d : Dir}

theorem color_eq (balanced : t.Balanced c n) : t.color = c := by
  cases balanced <;> rfl

theorem side_red (left : a.Balanced .black n) (right : b.Balanced .black n) :
    (side d .red a x b).Balanced .red n := by
  cases d
  · exact .red left right
  · exact .red right left

theorem side_black (left : a.Balanced c n) (right : b.Balanced c' n) :
    (side d .black a x b).Balanced .black (n + 1) := by
  cases d
  · exact .black left right
  · exact .black right left

theorem of_side_red (balanced : (side d .red a x b).Balanced c n) :
    c = .red ∧ a.Balanced .black n ∧ b.Balanced .black n := by
  cases d <;> cases balanced with
  | red left right => simp [left, right]

theorem of_side_black (balanced : (side d .black a x b).Balanced c n) :
    c = .black ∧ ∃ m e e', n = m + 1 ∧ a.Balanced e m ∧ b.Balanced e' m := by
  cases d <;> cases balanced with
  | black left right => exact ⟨rfl, _, _, _, rfl, by assumption, by assumption⟩

/-- A black root makes a tree of any root colour balanced. -/
theorem blacken_red (balanced : t.Balanced .red n) : t.blacken.Balanced .black (n + 1) := by
  cases balanced with
  | red left right => exact .black left right

theorem blacken_black (balanced : t.Balanced .black n) : t.blacken = t := by
  cases balanced <;> rfl

/-- A tree of positive black height is not empty. -/
theorem ne_nil (balanced : t.Balanced c (n + 1)) : t ≠ ColorTree.nil := by
  rintro rfl
  cases balanced

/-- Every other node on a way down is black. -/
theorem depth_le (balanced : t.Balanced c n) : t.depth ≤ 2 * n + if c = .red then 1 else 0 := by
  induction balanced with
  | nil => exact Nat.zero_le _
  | red _ _ left right =>
    simp only [depth, reduceCtorEq, if_false, if_true] at *
    omega
  | @black _ _ _ c c' n _ _ left right =>
    have colours : (if c = Color.red then 1 else 0) ≤ 1 ∧ (if c' = Color.red then 1 else 0) ≤ 1 := by
      constructor <;> split <;> decide
    simp only [depth]
    omega

/-- A balanced tree with a black root is at most twice as deep as a full one. -/
theorem depth_le_log (balanced : t.Balanced .black n) :
    t.depth ≤ 2 * (t.inorder.length + 1).log2 := by
  have full : ∀ {t : ColorTree α} {c n}, t.Balanced c n → 2 ^ n ≤ t.inorder.length + 1 := by
    intro t c n balanced
    induction balanced with
    | nil => exact Nat.le_refl _
    | red _ _ left right =>
      simp only [inorder, List.length_append, List.length_cons]
      omega
    | black _ _ left right =>
      simp only [inorder, List.length_append, List.length_cons, Nat.pow_succ]
      omega
  have height : n ≤ (t.inorder.length + 1).log2 :=
    (Nat.le_log2 (Nat.succ_ne_zero _)).mpr (full balanced)
  have depth := balanced.depth_le
  simp only [reduceCtorEq, if_false] at depth
  omega

end Balanced

end ColorTree

/-- One step of a path: the parent of the position below, the direction in which
that position lies, and the subtree in the other direction. -/
structure Frame (α : Type u) where
  dir : Dir
  color : Color
  value : α
  sibling : ColorTree α
  deriving DecidableEq, Repr

/-- A path lists the frames from a position up to the root. -/
abbrev TreePath (α : Type u) := List (Frame α)

/-- The whole tree, from the focus and its path. -/
def plug : TreePath α → ColorTree α → ColorTree α
  | [], t => t
  | f :: path, t => plug path (ColorTree.side f.dir f.color t f.value f.sibling)

open ColorTree

variable {x : α} {path : TreePath α} {c : Color} {d : Dir}

/-- Exchanging a focus for one with the same values keeps the values of the tree. -/
theorem inorder_plug_congr {t' : ColorTree α} (path : TreePath α) (same : t.inorder = t'.inorder) :
    (plug path t).inorder = (plug path t').inorder := by
  induction path generalizing t t' with
  | nil => exact same
  | cons f path ih => exact ih (inorder_side_congr f.dir f.color f.color f.value same rfl)

/-- Values to the left of a position. -/
def TreePath.before : TreePath α → List α
  | [] => []
  | ⟨.left, _, _, _⟩ :: path => before path
  | ⟨.right, _, x, s⟩ :: path => before path ++ (s.inorder ++ [x])

/-- Values to the right of a position. -/
def TreePath.after : TreePath α → List α
  | [] => []
  | ⟨.left, _, x, s⟩ :: path => (x :: s.inorder) ++ after path
  | ⟨.right, _, _, _⟩ :: path => after path

open TreePath

/-- The values of the whole tree, seen from a position. -/
theorem inorder_plug (path : TreePath α) (t : ColorTree α) :
    (plug path t).inorder = before path ++ t.inorder ++ after path := by
  induction path generalizing t with
  | nil => simp [plug, before, after]
  | cons f path ih =>
    obtain ⟨d, c, x, s⟩ := f
    cases d <;> simp [plug, ih, before, after, side, inorder]

/-- Values on a path: those of its parents and of the subtrees beside it. -/
def TreePath.values : TreePath α → List α
  | [] => []
  | f :: path => f.value :: f.sibling.inorder ++ values path

theorem ColorTree.inorder_side_perm (d : Dir) (c : Color) (a b : ColorTree α) (x : α) :
    (side d c a x b).inorder.Perm (a.inorder ++ x :: b.inorder) := by
  cases d with
  | left => exact List.Perm.refl _
  | right =>
    refine List.perm_middle.trans (List.Perm.trans ?_ List.perm_middle.symm)
    exact (List.perm_append_comm).cons x

/-- The values of the whole tree are those of the focus and those on its path. -/
theorem plug_perm (path : TreePath α) (t : ColorTree α) :
    (plug path t).inorder.Perm (t.inorder ++ values path) := by
  induction path generalizing t with
  | nil => simp [plug, values]
  | cons f path ih =>
    refine (ih _).trans ?_
    rw [values, ← List.append_assoc]
    exact (inorder_side_perm ..).append_right _

theorem TreePath.length_le_values (path : TreePath α) : path.length ≤ (values path).length
    := by
  induction path with
  | nil => exact Nat.le_refl _
  | cons f path ih =>
    simp only [List.length_cons, values, List.length_append]
    omega

theorem plug_append (path path' : TreePath α) (t : ColorTree α) :
    plug (path ++ path') t = plug path' (plug path t) := by
  induction path generalizing t with
  | nil => rfl
  | cons f path ih => exact ih _

/-- Every value of a tree has a position. -/
theorem exists_position (member : x ∈ t.inorder) : ∃ path c l r, t = plug path (.node c l x r) := by
  induction t with
  | nil => cases member
  | node c l y r left right =>
    simp only [inorder, List.mem_append, List.mem_cons] at member
    rcases member with inLeft | rfl | inRight
    · obtain ⟨path, c', l', r', rfl⟩ := left inLeft
      exact ⟨path ++ [⟨.left, c, y, r⟩], c', l', r', by rw [plug_append]; rfl⟩
    · exact ⟨[], c, l, r, rfl⟩
    · obtain ⟨path, c', l', r', rfl⟩ := right inRight
      exact ⟨path ++ [⟨.right, c, y, l⟩], c', l', r', by rw [plug_append]; rfl⟩

theorem exists_position_side (d : Dir) (member : x ∈ t.inorder) :
    ∃ path c a b, t = plug path (side d c a x b) := by
  obtain ⟨path, c, l, r, shape⟩ := exists_position member
  cases d with
  | left => exact ⟨path, c, l, r, shape⟩
  | right => exact ⟨path, c, r, l, shape⟩

/-- Induction over the subtrees in a direction and in the other one. -/
theorem ColorTree.side_induction (d : Dir) {motive : ColorTree α → Prop} (nil : motive .nil)
    (side : ∀ c a x b, motive a → motive b → motive (side d c a x b)) (t : ColorTree α) :
    motive t := by
  induction t with
  | nil => exact nil
  | node c l x r left right =>
    cases d with
    | left => exact side c l x r left right
    | right => exact side c r x l right left

/-- Values in the order in which they lie in a direction. -/
def ColorTree.along (d : Dir) (t : ColorTree α) : List α :=
  match d with
  | .left => t.inorder.reverse
  | .right => t.inorder

theorem ColorTree.along_side (d : Dir) (c : Color) (a b : ColorTree α) (x : α) :
    (side d c a x b).along d = b.along d ++ x :: a.along d := by
  cases d <;> simp [along, side, inorder]

theorem ColorTree.along_perm (d : Dir) (t : ColorTree α) : (t.along d).Perm t.inorder := by
  cases d with
  | left => exact List.reverse_perm _
  | right => exact List.Perm.refl _

theorem ColorTree.exists_along (d : Dir) (nonempty : t ≠ nil) :
    ∃ x rest, t.along d = x :: rest := by
  apply List.exists_cons_of_ne_nil
  cases t with
  | nil => exact absurd rfl nonempty
  | node c l x r => cases d <;> simp [along, inorder]

/-- Values that lie beyond a position in a direction. -/
def TreePath.beyond (d : Dir) : TreePath α → List α
  | [] => []
  | f :: path =>
    if f.dir = d then beyond d path
    else f.value :: (f.sibling.along d ++ beyond d path)

theorem along_plug (d : Dir) (path : TreePath α) (t : ColorTree α) :
    ∃ behind, (plug path t).along d = behind ++ (t.along d ++ beyond d path) := by
  induction path generalizing t with
  | nil => exact ⟨[], by simp [plug, beyond]⟩
  | cons f path ih =>
    obtain ⟨behind, whole⟩ := ih (side f.dir f.color t f.value f.sibling)
    rcases Dir.eq_or_opp d f.dir with same | other
    · refine ⟨behind ++ (f.sibling.along d ++ [f.value]), ?_⟩
      rw [plug, whole, same, along_side, beyond, if_pos same]
      simp
    · rw [plug, whole, other, side_opp, along_side, beyond, if_neg (by simp [other])]
      simp

/-- A tree that is not empty has a leftmost position. -/
theorem exists_leftmost (nonempty : t ≠ .nil) :
    ∃ path c x r, (∀ f ∈ path, f.dir = .left) ∧ t = plug path (.node c .nil x r) := by
  induction t with
  | nil => exact absurd rfl nonempty
  | node c l y r left _ =>
    by_cases empty : l = .nil
    · subst empty
      exact ⟨[], c, y, r, by simp, rfl⟩
    · obtain ⟨path, c', x, r', towards, rfl⟩ := left empty
      refine ⟨path ++ [⟨.left, c, y, r⟩], c', x, r', ?_, by rw [plug_append]; rfl⟩
      intro f member
      rcases List.mem_append.mp member with inside | last
      · exact towards f inside
      · rw [List.mem_singleton.mp last]

/-- Nothing is to the left of a leftmost position. -/
theorem TreePath.before_of_left (towards : ∀ f ∈ path, f.dir = .left) :
    before path = [] := by
  induction path with
  | nil => rfl
  | cons f path ih =>
    obtain ⟨d, c, x, s⟩ := f
    obtain rfl : d = .left := towards _ (List.mem_cons_self ..)
    exact ih (fun g member => towards g (List.mem_cons_of_mem _ member))

/-- The tree around a hole for a tree of colour `c` and black height `n` is balanced
with a black root. -/
inductive TreePath.Balanced : TreePath α → Color → Nat → Prop where
  | root {n : Nat} : TreePath.Balanced [] .black n
  | red {path : TreePath α} {d : Dir} {x : α} {s : ColorTree α} {n : Nat} :
      s.Balanced .black n → TreePath.Balanced path .red n →
      TreePath.Balanced (⟨d, .red, x, s⟩ :: path) .black n
  | black {path : TreePath α} {d : Dir} {x : α} {s : ColorTree α} {c c' : Color} {n : Nat} :
      s.Balanced c' n → TreePath.Balanced path .black (n + 1) →
      TreePath.Balanced (⟨d, .black, x, s⟩ :: path) c n

theorem TreePath.Balanced.fill (around : TreePath.Balanced path c n) (inner : t.Balanced c n) :
    ∃ m, (plug path t).Balanced .black m := by
  induction around generalizing t with
  | root => exact ⟨_, inner⟩
  | red sibling _ ih => exact ih (.side_red inner sibling)
  | black sibling _ ih => exact ih (.side_black inner sibling)

theorem TreePath.balanced_of_plug {m : Nat} (whole : (plug path t).Balanced .black m) :
    ∃ c n, t.Balanced c n ∧ TreePath.Balanced path c n := by
  induction path generalizing t with
  | nil => exact ⟨.black, m, whole, .root⟩
  | cons f path ih =>
    obtain ⟨c, n, inner, outer⟩ := ih whole
    obtain ⟨d, shade, x, s⟩ := f
    cases shade with
    | red =>
      obtain ⟨rfl, left, right⟩ := inner.of_side_red
      exact ⟨.black, n, left, .red right outer⟩
    | black =>
      obtain ⟨rfl, k, e, e', rfl, left, right⟩ := inner.of_side_black
      exact ⟨e, k, left, .black right outer⟩

theorem TreePath.Balanced.change_value {path' : TreePath α} {e : Color} {s : ColorTree α} (y : α)
    (around : TreePath.Balanced (path ++ ⟨d, e, x, s⟩ :: path') c n) :
    TreePath.Balanced (path ++ ⟨d, e, y, s⟩ :: path') c n := by
  induction path generalizing c n with
  | nil =>
    cases around with
    | red sibling outer => exact .red sibling outer
    | black sibling outer => exact .black sibling outer
  | cons f path ih =>
    cases around with
    | red sibling outer => exact .red sibling (ih outer)
    | black sibling outer => exact .black sibling (ih outer)

theorem TreePath.Balanced.accepts_black (around : TreePath.Balanced path c n) :
    TreePath.Balanced path .black n := by
  cases around with
  | root => exact .root
  | red sibling outer => exact .red sibling outer
  | black sibling outer => exact .black sibling outer

/-- Rotations around a red focus `t`, its red parent and its black grandparent. The
inner case first turns the focus above its parent. -/
def insertRotate (t : ColorTree α) (f g : Frame α) : ColorTree α :=
  if f.dir = g.dir then
    side g.dir .black t f.value (side g.dir .red f.sibling g.value g.sibling)
  else
    match t with
    | nil => side g.dir g.color (side f.dir f.color t f.value f.sibling) g.value g.sibling
    | node _ l z r =>
      match g.dir with
      | .left => side .left .black (side .left .red f.sibling f.value l) z
          (side .left .red r g.value g.sibling)
      | .right => side .right .black (side .right .red f.sibling f.value r) z
          (side .right .red l g.value g.sibling)

/-- Repair after a red leaf has been added. While the parent is red, either the
uncle is red too and the grandparent becomes the new focus, or rotations end the
repair. -/
def insertFix : ColorTree α → TreePath α → ColorTree α
  | t, [] => t
  | t, [f] => plug [f] t
  | t, f :: g :: path =>
    if f.color = .black then plug (f :: g :: path) t
    else if g.sibling.color = .red then
      insertFix (side g.dir .red (side f.dir .black t f.value f.sibling) g.value
        g.sibling.blacken) path
    else plug path (insertRotate t f g)

theorem insert_rotate_outer (t : ColorTree α) (f g : Frame α) (outer : f.dir = g.dir) :
    insertRotate t f g =
      side g.dir .black t f.value (side g.dir .red f.sibling g.value g.sibling) := by
  exact if_pos outer

/-- The inner case, with the focus taken apart. -/
theorem insert_rotate_inner (d : Dir) (c : Color) (a b : ColorTree α) (z : α) (f g : Frame α)
    (inner : f.dir ≠ g.dir) (towards : g.dir = d) :
    insertRotate (side d c a z b) f g = side d .black (side d .red f.sibling f.value a) z
      (side d .red b g.value g.sibling) := by
  subst towards
  unfold insertRotate
  rw [if_neg inner]
  cases towards : g.dir <;> simp [side]

/-- The rotations keep the values in order. -/
theorem inorder_insert_rotate (t : ColorTree α) (f g : Frame α) :
    (insertRotate t f g).inorder = (plug [f, g] t).inorder := by
  by_cases outer : f.dir = g.dir
  · rw [insert_rotate_outer t f g outer]
    simp only [plug, outer]
    exact (inorder_rotate g.dir f.color g.color .black .red t f.sibling g.sibling f.value
      g.value).symm
  · cases t with
    | nil =>
      rw [insertRotate, if_neg outer]
      rfl
    | node c l z r =>
      rw [insertRotate]
      cases towards : g.dir <;> cases from_ : f.dir <;> simp_all [plug, side, inorder]

/-- Repair after insertion keeps the values in order. -/
theorem inorder_insert_fix (t : ColorTree α) (path : TreePath α) :
    (insertFix t path).inorder = (plug path t).inorder := by
  induction t, path using insertFix.induct with
  | case1 t => rfl
  | case2 t f => rfl
  | case3 t f g path black =>
    rw [insertFix, if_pos black]
  | case4 t f g path notBlack uncle ih =>
    rw [insertFix, if_neg notBlack, if_pos uncle, ih]
    refine inorder_plug_congr path (inorder_side_congr _ _ _ _ ?_ (inorder_blacken _))
    exact inorder_side_congr _ _ _ _ rfl rfl
  | case5 t f g path notBlack uncle =>
    rw [insertFix, if_neg notBlack, if_neg uncle]
    exact inorder_plug_congr path (inorder_insert_rotate t f g)

/-- The rotations balance a red focus under a red parent and a black grandparent whose
other child is black. -/
theorem insert_rotate_balanced {u s : ColorTree α} {y : α} {e : Dir} (focus : t.Balanced .red n)
    (sibling : s.Balanced .black n) (uncle : u.Balanced .black n) :
    (insertRotate t ⟨d, .red, x, s⟩ ⟨e, .black, y, u⟩).Balanced .black (n + 1) := by
  by_cases outer : d = e
  · subst outer
    rw [insert_rotate_outer t ⟨d, .red, x, s⟩ ⟨d, .black, y, u⟩ rfl]
    exact .side_black focus (.side_red sibling uncle)
  · have whole := exists_side e (t := t) (by rintro rfl; cases focus)
    obtain ⟨a, z, b, shape⟩ := whole
    rw [focus.color_eq] at shape
    subst shape
    obtain ⟨-, left, right⟩ := focus.of_side_red
    rw [insert_rotate_inner e .red a b z _ _ outer rfl]
    exact .side_black (.side_red sibling left) (.side_red right uncle)

/-- Repair after insertion balances the tree. The hole of the path is one that a black
tree filled before; the focus is red. -/
theorem insert_fix_balanced (focus : t.Balanced .red n) (around : TreePath.Balanced path .black n) :
    ∃ m, (insertFix t path).blacken.Balanced .black m := by
  induction t, path using insertFix.induct generalizing n with
  | case1 t => exact ⟨_, focus.blacken_red⟩
  | case2 t f =>
    cases around with
    | red _ outer => cases outer
    | black sibling outer =>
      obtain ⟨m, balanced⟩ := (TreePath.Balanced.black sibling outer).fill focus
      exact ⟨m, by rwa [insertFix, balanced.blacken_black]⟩
  | case3 t f g path isBlack =>
    cases around with
    | red _ _ => cases isBlack
    | black sibling outer =>
      obtain ⟨m, balanced⟩ := (TreePath.Balanced.black sibling outer).fill focus
      rw [insertFix, if_pos isBlack]
      exact ⟨m, by rwa [balanced.blacken_black]⟩
  | case4 t f g path notBlack uncle ih =>
    cases around with
    | black _ _ => exact absurd rfl notBlack
    | red sibling outer =>
      cases outer with
      | black above rest =>
        rw [insertFix, if_pos uncle]
        rw [above.color_eq] at uncle
        subst uncle
        exact ih (.side_red (.side_black focus sibling) above.blacken_red) rest
  | case5 t f g path notBlack uncle =>
    cases around with
    | black _ _ => exact absurd rfl notBlack
    | red sibling outer =>
      cases outer with
      | @black _ _ _ u _ c' _ above rest =>
        rw [insertFix, if_neg notBlack, if_neg uncle]
        have black : c' = .black := by
          rw [above.color_eq] at uncle
          cases c'
          · exact absurd rfl uncle
          · rfl
        subst black
        obtain ⟨m, balanced⟩ := rest.fill (insert_rotate_balanced focus sibling above)
        exact ⟨m, by rwa [balanced.blacken_black]⟩

/-- Subtrees of a node, first the one in direction `d`. -/
def ColorTree.split (d : Dir) : ColorTree α → Option (ColorTree α × α × ColorTree α)
  | nil => none
  | node _ l x r =>
    match d with
    | .left => some (l, x, r)
    | .right => some (r, x, l)

@[simp] theorem ColorTree.split_side (d : Dir) (c : Color) (a b : ColorTree α) (x : α) :
    (side d c a x b).split d = some (a, x, b) := by
  cases d <;> rfl

theorem ColorTree.side_of_split {a b : ColorTree α} (found : t.split d = some (a, x, b)) :
    t = side d t.color a x b := by
  cases t with
  | nil => cases found
  | node c l y r => cases d <;> cases found <;> rfl

/-- One turn of the repair after a removal, around a focus `t` that is one black node
short and a black sibling `s`. If the sibling has no red child it becomes red and the
repair goes on from the parent, as the second component tells. Otherwise a red child
of the sibling makes up for the missing node. -/
def borrow (d : Dir) (c : Color) (t : ColorTree α) (x : α) (s : ColorTree α) : ColorTree α × Bool :=
  match s.split d with
  | none => (side d c t x s, false)
  | some (a, y, b) =>
    if a.color = .black ∧ b.color = .black then
      (side d c t x (side d .red a y b), true)
    else if b.color = .black then
      match a.split d with
      | none => (side d c t x s, false)
      | some (a₁, z, a₂) =>
        (side d c (side d .black t x a₁) z (side d .black a₂ y b), false)
    else
      (side d c (side d .black t x a) y b.blacken, false)

/-- Repair after a black node has been removed above the focus. A red focus becomes
black. A red sibling is first turned above the parent, which then has a black
sibling of the focus and is red itself, so that one turn is enough. -/
def removeFix : ColorTree α → TreePath α → ColorTree α
  | t, [] => t.blacken
  | t, f :: path =>
    if t.color = .red then plug (f :: path) t.blacken
    else
      match f.sibling.split f.dir with
      | none => plug (f :: path) t
      | some (a, y, b) =>
        if f.sibling.color = .red then
          let next := borrow f.dir .red t f.value a
          if next.2 then plug path (side f.dir .black next.1.blacken y b)
          else (plug path (side f.dir .black next.1 y b)).blacken
        else
          let next := borrow f.dir f.color t f.value f.sibling
          if next.2 then removeFix next.1 path else (plug path next.1).blacken

/-- One turn keeps the values in order. -/
theorem inorder_borrow (d : Dir) (c : Color) (t : ColorTree α) (x : α) (s : ColorTree α) :
    (borrow d c t x s).1.inorder = (side d c t x s).inorder := by
  cases s with
  | nil => rfl
  | node e l y r =>
    cases d
    · unfold borrow
      simp only [split]
      split
      · rfl
      · split
        · cases l <;> simp [side, inorder]
        · simp [side, inorder]
    · unfold borrow
      simp only [split]
      split
      · rfl
      · split
        · cases r <;> simp [side, inorder]
        · simp [side, inorder]

/-- Repair after removal keeps the values in order. -/
theorem inorder_remove_fix (t : ColorTree α) (path : TreePath α) :
    (removeFix t path).inorder = (plug path t).inorder := by
  induction path generalizing t with
  | nil => exact inorder_blacken t
  | cons f path ih =>
    unfold removeFix
    split
    · exact inorder_plug_congr (f :: path) (inorder_blacken t)
    · split
      · rfl
      · rename_i a y b found
        have shape := side_of_split found
        split
        · -- a red sibling has been turned above the parent
          have turned : (side f.dir .black (side f.dir .red t f.value a) y b).inorder =
              (side f.dir f.color t f.value f.sibling).inorder := by
            rw [shape]
            exact inorder_rotate ..
          have kept := inorder_borrow f.dir .red t f.value a
          dsimp only
          split
          · refine inorder_plug_congr path (Eq.trans ?_ turned)
            refine inorder_side_congr _ _ _ _ ?_ rfl
            rw [inorder_blacken, kept]
          · rw [inorder_blacken]
            refine inorder_plug_congr path (Eq.trans ?_ turned)
            exact inorder_side_congr _ _ _ _ kept rfl
        · have kept := inorder_borrow f.dir f.color t f.value f.sibling
          dsimp only
          split
          · rw [ih]
            exact inorder_plug_congr path kept
          · rw [inorder_blacken]
            exact inorder_plug_congr path kept

section Borrow

variable {e e' : Color} {s a b : ColorTree α}

/-- The three ways a turn can go, by the colours of the sibling's children. -/
theorem borrow_cases (d : Dir) (c c' : Color) (t : ColorTree α) (x y : α) (near : a.Balanced e n)
    (far : b.Balanced e' n) :
    (e = .black ∧ e' = .black ∧
      borrow d c t x (side d c' a y b) = (side d c t x (side d .red a y b), true)) ∨
    (e' = .black ∧ ∃ a₁ z a₂, a = side d .red a₁ z a₂ ∧
      borrow d c t x (side d c' a y b) =
        (side d c (side d .black t x a₁) z (side d .black a₂ y b), false)) ∨
    (e' = .red ∧ borrow d c t x (side d c' a y b) =
      (side d c (side d .black t x a) y b.blacken, false)) := by
  simp only [borrow, split_side, near.color_eq, far.color_eq]
  cases e' with
  | red => exact .inr (.inr ⟨rfl, by simp⟩)
  | black =>
    cases e with
    | black => exact .inl ⟨rfl, rfl, by simp⟩
    | red =>
      obtain ⟨a₁, z, a₂, shape⟩ := exists_side d (t := a) (by rintro rfl; cases near)
      rw [near.color_eq] at shape
      refine .inr (.inl ⟨rfl, a₁, z, a₂, shape, ?_⟩)
      rw [shape]
      simp

/-- What a turn makes of the parent. If the repair goes on, the parent keeps its
colour and has the black height it had below it; otherwise its subtrees have the
black height that the sibling had. -/
theorem borrow_balanced (d : Dir) (c : Color) (x : α) (focus : t.Balanced .black n)
    (sibling : s.Balanced .black (n + 1)) :
    (∃ s', s'.Balanced .red n ∧ borrow d c t x s = (side d c t x s', true)) ∨
    ∃ l z r, l.Balanced .black (n + 1) ∧ r.Balanced .black (n + 1) ∧
      borrow d c t x s = (side d c l z r, false) := by
  obtain ⟨a, y, b, shape⟩ := exists_side d sibling.ne_nil
  rw [sibling.color_eq] at shape
  subst shape
  obtain ⟨-, m, e, e', height, near, far⟩ := sibling.of_side_black
  obtain rfl : n = m := by omega
  rcases borrow_cases d c .black t x y near far with
    ⟨rfl, rfl, turn⟩ | ⟨rfl, a₁, z, a₂, rfl, turn⟩ | ⟨rfl, turn⟩
  · exact .inl ⟨_, .side_red near far, turn⟩
  · obtain ⟨-, inner, outer⟩ := near.of_side_red
    exact .inr ⟨_, _, _, .side_black focus inner, .side_black outer far, turn⟩
  · exact .inr ⟨_, _, _, .side_black focus near, far.blacken_red, turn⟩

end Borrow

/-- A red focus becomes black and ends the repair. -/
theorem remove_fix_red (path : TreePath α) (red : t.color = .red) :
    removeFix t path = plug path t.blacken := by
  cases path with
  | nil => rfl
  | cons f path => rw [removeFix, if_pos red]

/-- A black sibling: one turn, and the repair goes on from the parent or ends. -/
theorem remove_fix_black {f : Frame α} (path : TreePath α) (black : t.color = .black)
    (sibling : f.sibling.color = .black) (nonempty : f.sibling ≠ nil) :
    removeFix t (f :: path) =
      if (borrow f.dir f.color t f.value f.sibling).2 then
        removeFix (borrow f.dir f.color t f.value f.sibling).1 path
      else (plug path (borrow f.dir f.color t f.value f.sibling).1).blacken := by
  obtain ⟨a, y, b, shape⟩ := exists_side f.dir nonempty
  have found : f.sibling.split f.dir = some (a, y, b) := by rw [shape, split_side]
  rw [removeFix, black, found]
  simp only [sibling, reduceCtorEq, if_false]

/-- A red sibling: it has been turned above the parent, and one turn follows. -/
theorem remove_fix_red_sibling {a b : ColorTree α} {y : α} (path : TreePath α)
    (black : t.color = .black) :
    removeFix t (⟨d, c, x, side d .red a y b⟩ :: path) =
      if (borrow d .red t x a).2 then
        plug path (side d .black (borrow d .red t x a).1.blacken y b)
      else (plug path (side d .black (borrow d .red t x a).1 y b)).blacken := by
  rw [removeFix, black]
  simp

/-- Repair after removal balances the tree. The path was balanced around a black tree
that had one black node more than the focus has. -/
theorem remove_fix_balanced (focus : t.Balanced c n)
    (around : TreePath.Balanced path .black (n + 1)) :
    ∃ m, (removeFix t path).Balanced .black m := by
  induction path generalizing t c n with
  | nil =>
    cases c with
    | red => exact ⟨_, focus.blacken_red⟩
    | black => exact ⟨_, by rwa [removeFix, focus.blacken_black]⟩
  | cons f path ih =>
    cases c with
    | red =>
      rw [removeFix, if_pos focus.color_eq]
      exact around.fill focus.blacken_red
    | black =>
      have dark := focus.color_eq
      cases around with
      | @red _ d x s _ sibling outer =>
        rw [remove_fix_black path dark sibling.color_eq sibling.ne_nil]
        rcases borrow_balanced d .red x focus sibling with
          ⟨s', low, turn⟩ | ⟨l, z, r, left, right, turn⟩
        · rw [turn, remove_fix_red path (color_side ..), blacken_side]
          exact outer.accepts_black.fill (.side_black focus low)
        · rw [turn]
          obtain ⟨m, balanced⟩ := outer.fill (.side_red left right)
          exact ⟨m, by rwa [balanced.blacken_black]⟩
      | @black _ d x s _ c' _ sibling outer =>
        cases c' with
        | red =>
          obtain ⟨a, y, b, shape⟩ := exists_side d (t := s) (by rintro rfl; cases sibling)
          rw [sibling.color_eq] at shape
          subst shape
          obtain ⟨-, near, far⟩ := sibling.of_side_red
          rw [remove_fix_red_sibling path dark]
          rcases borrow_balanced d .red x focus near with
            ⟨s', low, turn⟩ | ⟨l, z, r, left, right, turn⟩
          · rw [turn, blacken_side]
            exact outer.fill (.side_black (.side_black focus low) far)
          · rw [turn]
            obtain ⟨m, balanced⟩ := outer.fill (.side_black (.side_red left right) far)
            exact ⟨m, by rwa [balanced.blacken_black]⟩
        | black =>
          rw [remove_fix_black path dark sibling.color_eq sibling.ne_nil]
          rcases borrow_balanced d .black x focus sibling with
            ⟨s', low, turn⟩ | ⟨l, z, r, left, right, turn⟩
          · rw [turn]
            exact ih (.side_black focus low) outer
          · rw [turn]
            obtain ⟨m, balanced⟩ := outer.fill (.side_black left right)
            exact ⟨m, by rwa [balanced.blacken_black]⟩

end RedBlack
