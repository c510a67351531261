import Mathlib.Data.Set.Insert
import Mftt.RbTree

/-!
# Trees in memory

A tree of node addresses is represented when every node stores its children, its
parent and its colour. For a position in a tree the focus and the path are represented
separately: moving the focus changes nothing in memory, and an operation near the
focus has to be checked against the few nodes it writes.
-/

namespace Mftt

open RedBlack TreePath ColorTree

/-- Address of the root of a tree. -/
def rootPtr : ColorTree NodePtr → NodePtr
  | .nil => .null
  | .node _ _ p _ => p

/-- Address of the parent of a position. -/
def topPtr : TreePath NodePtr → NodePtr
  | [] => .null
  | f :: _ => f.value

@[simp] theorem root_ptr_side (d : Dir) (c : Color) (a b : ColorTree NodePtr) (p : NodePtr) :
    rootPtr (side d c a p b) = p := by
  cases d <;> rfl

/-- The fields of one node. -/
structure Stores (n : RbNode) (parent : NodePtr) (color : Color) (d : Dir)
    (towards away : NodePtr) : Prop where
  parent : n.getParent = parent
  color : n.getColor = color
  towards : n.child d = towards
  away : n.child d.opp = away

/-- The memory holds the tree, whose root has the given parent. -/
def Rep (t : RbTree) : NodePtr → ColorTree NodePtr → Prop
  | _, .nil => True
  | parent, .node c l p r => p ≠ .null ∧
      Stores (t.nodes p) parent c .left (rootPtr l) (rootPtr r) ∧ Rep t p l ∧ Rep t p r

/-- The memory holds everything around a position that the address `hole` fills. -/
def RepPath (t : RbTree) : NodePtr → TreePath NodePtr → Prop
  | hole, [] => t.root = hole
  | hole, f :: path => f.value ≠ .null ∧
      Stores (t.nodes f.value) (topPtr path) f.color f.dir hole (rootPtr f.sibling) ∧
      Rep t f.value f.sibling ∧ RepPath t f.value path

variable {parent p : NodePtr} {c : Color} {d : Dir} {t : RbTree} {path : TreePath NodePtr}
  {s : ColorTree NodePtr}

theorem Stores.mirror {n : RbNode} {towards away : NodePtr} :
    Stores n parent c d.opp away towards ↔ Stores n parent c d towards away := by
  constructor
  · rintro ⟨parent, color, one, other⟩
    exact ⟨parent, color, by rwa [Dir.opp_opp] at other, one⟩
  · rintro ⟨parent, color, one, other⟩
    exact ⟨parent, color, other, by rwa [Dir.opp_opp]⟩

theorem rep_side {a b : ColorTree NodePtr} :
    Rep t parent (side d c a p b) ↔ p ≠ .null ∧
      Stores (t.nodes p) parent c d (rootPtr a) (rootPtr b) ∧ Rep t p a ∧ Rep t p b := by
  cases d with
  | left => exact Iff.rfl
  | right =>
    rw [← Stores.mirror]
    simp only [side, Rep, Dir.opp]
    tauto

/-- A position in a tree in memory. No node occurs twice. -/
structure At (t : RbTree) (s : ColorTree NodePtr) (path : TreePath NodePtr) : Prop where
  focus : Rep t (topPtr path) s
  around : RepPath t (rootPtr s) path
  distinct : (s.inorder ++ values path).Nodup

/-- The nodes of a focus with a root and of its path, with the root first. -/
theorem nodup_node {l r : ColorTree NodePtr} :
    ((node c l p r).inorder ++ values path).Nodup ↔
      (p :: (l.inorder ++ r.inorder ++ values path)).Nodup := by
  apply List.Perm.nodup_iff
  simp only [inorder, List.append_assoc, List.cons_append]
  exact List.perm_middle

/-- Moving the focus to a child, or back to its parent. -/
theorem at_child {a b : ColorTree NodePtr} :
    At t (side d c a p b) path ↔ At t a (⟨d, c, p, b⟩ :: path) := by
  have same : ((side d c a p b).inorder ++ values path).Nodup ↔
      (a.inorder ++ values (⟨d, c, p, b⟩ :: path)).Nodup := by
    rw [values, ← List.append_assoc]
    exact ((inorder_side_perm ..).append_right _).nodup_iff
  constructor
  · rintro ⟨focus, around, distinct⟩
    obtain ⟨valid, stores, near, far⟩ := rep_side.mp focus
    rw [root_ptr_side] at around
    exact ⟨near, ⟨valid, stores, far, around⟩, same.mp distinct⟩
  · rintro ⟨near, ⟨valid, stores, far, around⟩, distinct⟩
    refine ⟨rep_side.mpr ⟨valid, stores, near, far⟩, ?_, same.mpr distinct⟩
    rwa [root_ptr_side]

/-- The whole tree is held as any of its positions is. -/
theorem at_plug : At t (plug path s) [] ↔ At t s path := by
  induction path generalizing s with
  | nil => exact Iff.rfl
  | cons f path ih => exact ih.trans at_child

/-- A tree is held by any memory that has the same nodes for it. -/
theorem Rep.congr {t' : RbTree} (rep : Rep t parent s)
    (same : ∀ p ∈ s.inorder, t'.nodes p = t.nodes p) : Rep t' parent s := by
  induction s generalizing parent with
  | nil => trivial
  | node c l p r left right =>
    obtain ⟨valid, stores, repLeft, repRight⟩ := rep
    refine ⟨valid, ?_, left repLeft (fun q member => same q ?_),
      right repRight (fun q member => same q ?_)⟩
    · rw [same p (by simp [inorder])]
      exact stores
    · simp [inorder, member]
    · simp [inorder, member]

theorem RepPath.congr {t' : RbTree} {hole : NodePtr} (rep : RepPath t hole path)
    (root : t'.root = t.root) (same : ∀ p ∈ values path, t'.nodes p = t.nodes p) :
    RepPath t' hole path := by
  induction path generalizing hole with
  | nil => exact root.trans rep
  | cons f path ih =>
    obtain ⟨valid, stores, sibling, outer⟩ := rep
    refine ⟨valid, ?_, sibling.congr (fun q member => same q ?_),
      ih outer (fun q member => same q ?_)⟩
    · rw [same f.value (by simp [values])]
      exact stores
    · simp [values, member]
    · simp [values, member]

/-- A step changes no key, and no node outside `touched`. -/
structure Keeps (t t' : RbTree) (touched : Set NodePtr) : Prop where
  keys : ∀ p, (t'.nodes p).key = (t.nodes p).key
  others : ∀ p, p ∉ touched → t'.nodes p = t.nodes p

theorem Keeps.refl (t : RbTree) (touched : Set NodePtr) : Keeps t t touched :=
  ⟨fun _ => rfl, fun _ _ => rfl⟩

theorem Keeps.trans {t' t'' : RbTree} {touched : Set NodePtr} (first : Keeps t t' touched)
    (second : Keeps t' t'' touched) : Keeps t t'' touched :=
  ⟨fun p => (second.keys p).trans (first.keys p),
    fun p outside => (second.others p outside).trans (first.others p outside)⟩

theorem Keeps.mono {t' : RbTree} {touched wider : Set NodePtr} (keeps : Keeps t t' touched)
    (included : touched ⊆ wider) : Keeps t t' wider :=
  ⟨keeps.keys, fun p outside => keeps.others p (fun member => outside (included member))⟩

section Writes

variable {q hole : NodePtr} {f : RbNode → RbNode}

theorem nodes_update (t : RbTree) (p q : NodePtr) (f : RbNode → RbNode) :
    (t.update p f).nodes q = if q = p then f (t.nodes p) else t.nodes q := by
  simp [RbTree.update, Function.update_apply]

@[simp] theorem nodes_update_self : (t.update p f).nodes p = f (t.nodes p) := by
  simp [nodes_update]

@[simp] theorem nodes_update_ne (other : q ≠ p) : (t.update p f).nodes q = t.nodes q := by
  simp [nodes_update, other]

theorem Rep.update (rep : Rep t parent s) (outside : p ∉ s.inorder) :
    Rep (t.update p f) parent s :=
  rep.congr (fun _ member => nodes_update_ne (fun same => outside (same ▸ member)))

theorem RepPath.update (rep : RepPath t hole path) (outside : p ∉ values path) :
    RepPath (t.update p f) hole path :=
  rep.congr rfl (fun _ member => nodes_update_ne (fun same => outside (same ▸ member)))

theorem Keeps.update (t : RbTree) (p : NodePtr) (kept : ∀ n, (f n).key = n.key) :
    Keeps t (t.update p f) {p} := by
  refine ⟨fun q => ?_, fun q other => nodes_update_ne other⟩
  by_cases same : q = p
  · subst same
    rw [nodes_update_self, kept]
  · rw [nodes_update_ne same]

theorem Keeps.set_parent (t : RbTree) (p new : NodePtr) :
    Keeps t (t.update p (·.setParent new)) {p} :=
  Keeps.update t p (fun n => n.key_set_parent new)

theorem Keeps.set_child (t : RbTree) (p : NodePtr) (d : Dir) (new : NodePtr) :
    Keeps t (t.update p (·.setChild d new)) {p} :=
  Keeps.update t p (fun n => n.key_set_child new d)

theorem Keeps.set_color (t : RbTree) (p : NodePtr) (c : Color) :
    Keeps t (t.update p (·.setColor c)) {p} :=
  Keeps.update t p (fun n => n.key_set_color c)

theorem root_ptr_mem (rep : Rep t parent s) (some : rootPtr s ≠ .null) : rootPtr s ∈ s.inorder := by
  cases s with
  | nil => exact absurd rfl some
  | node c l p r => simp [rootPtr, inorder]

/-- A tree that is not empty has a root. -/
theorem root_ptr_ne (rep : Rep t parent s) : rootPtr s = .null ↔ s = .nil := by
  cases s with
  | nil => simp [rootPtr]
  | node c l p r => simp [rootPtr, rep.1]

/-- Giving a subtree another parent. -/
theorem adopt_rep (new : NodePtr) (rep : Rep t parent s) (distinct : s.inorder.Nodup) :
    ∃ t', adopt t (rootPtr s) new = .ok t' ∧ Rep t' new s ∧ t'.root = t.root ∧
      Keeps t t' {p | p = rootPtr s ∧ p ∈ s.inorder} := by
  cases s with
  | nil => exact ⟨t, by simp [adopt, rootPtr], trivial, rfl, Keeps.refl t _⟩
  | node c l p r =>
    obtain ⟨valid, ⟨_, color, left, right⟩, repLeft, repRight⟩ := rep
    refine ⟨t.update p (·.setParent new), by simp [adopt, rootPtr, valid], ?_, rfl, ?_⟩
    · have apart := List.nodup_middle.mp distinct
      have outside := (List.nodup_cons.mp apart).1
      rw [List.mem_append, not_or] at outside
      refine ⟨valid, ?_, repLeft.update outside.1, repRight.update outside.2⟩
      constructor <;> simp [color, left, right]
    · refine (Keeps.set_parent t p new).mono ?_
      rintro q rfl
      exact ⟨rfl, by simp [inorder]⟩

/-- Filling a position with another address. The old address is not the root of the
subtree beside it. -/
theorem relink_path (d : Dir) (new : NodePtr) (rep : RepPath t hole path) (some : hole ≠ .null)
    (distinct : (values path).Nodup) (outside : hole ∉ values path) :
    ∃ t', relink d t (topPtr path) hole new = .ok t' ∧ RepPath t' new path ∧
      Keeps t t' {p | p = topPtr path ∧ p ∈ values path} := by
  cases path with
  | nil =>
    exact ⟨{ t with root := new }, by simp [relink, topPtr], rfl, fun _ => rfl, fun _ _ => rfl⟩
  | cons f path =>
    obtain ⟨valid, ⟨up, color, towards, away⟩, sibling, outer⟩ := rep
    have notSibling : rootPtr f.sibling ≠ hole := by
      intro same
      have member := root_ptr_mem sibling (same ▸ some)
      exact outside (by simp [values, ← same, member])
    -- both tests choose the pointer to the position
    have chosen : relink d t f.value hole new = .ok (t.update f.value (·.setChild f.dir new)) := by
      rcases Dir.eq_or_opp d f.dir with same | same
      · rw [same] at towards ⊢
        simp [relink, valid, towards]
      · rw [same, Dir.opp_opp] at away
        simp [relink, valid, away, notSibling, same]
    simp only [values, List.cons_append, List.nodup_cons, List.mem_append,
      not_or] at distinct
    refine ⟨_, chosen, ⟨valid, ?_, sibling.update distinct.1.1, outer.update distinct.1.2⟩, ?_⟩
    · constructor <;> simp [up, color, away]
    · refine (Keeps.set_child t f.value f.dir new).mono ?_
      rintro q rfl
      exact ⟨rfl, by simp [values]⟩

/-- Colouring the root of the focus. -/
theorem set_color_at {a b : ColorTree NodePtr} (c' : Color)
    (here : At t (side d c a p b) path) :
    t.modify p (·.setColor c') = .ok (t.update p (·.setColor c')) ∧
      At (t.update p (·.setColor c')) (side d c' a p b) path := by
  obtain ⟨focus, around, distinct⟩ := here
  obtain ⟨valid, ⟨parent, color, towards, away⟩, near, far⟩ := rep_side.mp focus
  have same := ((inorder_side_perm d c a b p).append_right
    (values path)).nodup_iff
  have same' := ((inorder_side_perm d c' a b p).append_right
    (values path)).nodup_iff
  have flat := same.mp distinct
  rw [List.append_assoc, List.cons_append, List.nodup_middle] at flat
  have outside := (List.nodup_cons.mp flat).1
  simp only [List.mem_append, not_or] at outside
  refine ⟨RbTree.modify_of_ne valid, ?_, ?_, same'.mpr (same.mp distinct)⟩
  · refine rep_side.mpr ⟨valid, ?_, near.update outside.1, far.update outside.2.1⟩
    constructor <;> simp [parent, towards, away]
  · rw [root_ptr_side] at around ⊢
    exact around.update outside.2.2

end Writes

section Rotation

variable {e : Color} {l m r : ColorTree NodePtr} {x y : NodePtr}

theorem rotation_distinct
    (distinct : ((side d c l x (side d e m y r)).inorder ++ values
      path).Nodup) :
    (x :: y :: (l.inorder ++ m.inorder ++ r.inorder ++ values path)).Nodup := by
  refine List.Perm.nodup_iff ?_ |>.mp distinct
  cases d <;> simp only [side, inorder] <;> grind

/-- A rotation at the focus. The nodes keep their colours and change places. -/
theorem rotate_at (here : At t (side d c l x (side d e m y r)) path) :
    ∃ t', rotate d t x = .ok t' ∧ At t' (side d e (side d c l x m) y r) path ∧
      Keeps t t' {p | p = x ∨ p = y ∨ p ∈ m.inorder ∨ p ∈ values path} := by
  obtain ⟨focus, around, distinct⟩ := here
  have flat := rotation_distinct distinct
  obtain ⟨validX, ⟨parentX, colorX, nearX, farX⟩, repL, repUp⟩ := rep_side.mp focus
  obtain ⟨validY, ⟨parentY, colorY, nearY, farY⟩, repM, repR⟩ := rep_side.mp repUp
  rw [root_ptr_side] at around farX
  simp only [List.nodup_cons, List.mem_cons, List.mem_append, not_or] at flat
  obtain ⟨⟨differ, ⟨⟨xl, xm⟩, xr⟩, xp⟩, ⟨⟨⟨yl, ym⟩, yr⟩, yp⟩, rest⟩ := flat
  obtain ⟨⟨⟨uniqueL, uniqueM, lm⟩, uniqueR, lmr⟩, uniqueP, apart⟩ := by
    simpa only [List.nodup_append] using rest
  -- the middle subtree gets its new parent, then the place above the two nodes
  obtain ⟨t₂, adopted, repM₂, root₂, keeps₂⟩ :=
    adopt_rep x (repM.update (f := (·.setChild d.opp (rootPtr m))) xm) uniqueM
  have early : ∀ p, p ≠ x → p ∉ m.inorder → t₂.nodes p = t.nodes p := by
    intro p other outside
    rw [keeps₂.others p (fun member => outside member.2), nodes_update_ne other]
  have earlyX : t₂.nodes x = (t.nodes x).setChild d.opp (rootPtr m) := by
    rw [keeps₂.others x (fun member => xm member.2), nodes_update_self]
  have around₄ : RepPath ((t₂.update y (·.setChild d x)).update y
      (·.setParent (topPtr path))) x path := by
    refine RepPath.update (RepPath.update (around.congr root₂ ?_) yp) yp
    intro p member
    refine early p (fun same => xp (same ▸ member)) (fun inside => ?_)
    exact apart p (by simp [inside]) p member rfl
  obtain ⟨t₅, relinked, around₅, keeps₅⟩ := relink_path d y around₄ validX uniqueP xp
  have late : ∀ p, p ≠ y → p ∉ values path → t₅.nodes p = t₂.nodes p := by
    intro p other outside
    rw [keeps₅.others p (fun member => outside member.2), nodes_update_ne other,
      nodes_update_ne other]
  have lateY : t₅.nodes y = ((t.nodes y).setChild d x).setParent (topPtr path) := by
    rw [keeps₅.others y (fun member => yp member.2), nodes_update_self, nodes_update_self,
      early y (Ne.symm differ) ym]
  have lateX : t₅.nodes x = (t.nodes x).setChild d.opp (rootPtr m) := by
    rw [late x differ xp, earlyX]
  refine ⟨t₅.update x (·.setParent y), ?_, ⟨?_, ?_, ?_⟩, ?_, ?_⟩
  · simp only [rotate, RbTree.get_of_ne validX, farX, bind_ok, assert_true _ validY,
      RbTree.get_of_ne validY, nearY, RbTree.modify_of_ne validX, adopted,
      RbTree.modify_of_ne validY, parentX, relinked]
  · refine rep_side.mpr ⟨validY, ?_, rep_side.mpr ⟨validX, ?_, ?_, ?_⟩, ?_⟩
    · rw [nodes_update_ne (Ne.symm differ), lateY]
      constructor <;> simp [colorY, farY]
    · rw [nodes_update_self, lateX]
      constructor <;> simp [colorX, nearX]
    · refine repL.congr (fun p member => ?_)
      have outside : p ∉ values path := fun also => apart p (by simp [member]) p also rfl
      have notX : p ≠ x := fun same => xl (same ▸ member)
      rw [nodes_update_ne notX, late p (fun same => yl (same ▸ member)) outside,
        early p notX (fun also => lm p member p also rfl)]
    · refine repM₂.congr (fun p member => ?_)
      have outside : p ∉ values path := fun also => apart p (by simp [member]) p also rfl
      have notX : p ≠ x := fun same => xm (same ▸ member)
      rw [nodes_update_ne notX, late p (fun same => ym (same ▸ member)) outside]
    · refine repR.congr (fun p member => ?_)
      have outside : p ∉ values path := fun also => apart p (by simp [member]) p also rfl
      have notX : p ≠ x := fun same => xr (same ▸ member)
      rw [nodes_update_ne notX, late p (fun same => yr (same ▸ member)) outside,
        early p notX (fun also => lmr p (by simp [also]) p member rfl)]
  · rw [root_ptr_side]
    exact around₅.update xp
  · rwa [inorder_rotate d c e c e l m r x y]
  · intro p
    rw [(Keeps.set_parent t₅ x y).keys, keeps₅.keys, (Keeps.set_parent _ y _).keys,
      (Keeps.set_child t₂ y d x).keys, keeps₂.keys, (Keeps.set_child t x d.opp _).keys]
  · intro p outside
    simp only [Set.mem_ofPred_eq, not_or] at outside
    rw [nodes_update_ne outside.1, late p outside.2.1 outside.2.2.2,
      early p outside.1 outside.2.2.1]

end Rotation

end Mftt
