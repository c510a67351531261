import Mathlib.Data.List.Induction
import Mftt.RbRemove

/-!
# Taking a node out of a red-black tree

`rb_remove` first takes the node out and says which position lost a node and of what
colour. There are two ways to do it: a node with at most one child gives its place to
that child, and a node with two children gives it to its successor, the leftmost node
of its right subtree, whose own place goes to its right child. Both lead to a position
from which the repair starts.
-/

namespace Mftt

open RedBlack ColorTree TreePath RbTree

variable {t t' : RbTree} {s : ColorTree NodePtr} {path : TreePath NodePtr}

section Subtrees

variable {parent : NodePtr} {s' : ColorTree NodePtr}

/-- A subtree is held in memory below some parent. -/
theorem Rep.inner (path : TreePath NodePtr) (rep : Rep t parent (plug path s)) : ∃ up, Rep t up s
    := by
  induction path generalizing s with
  | nil => exact ⟨parent, rep⟩
  | cons f path ih =>
    obtain ⟨_, whole⟩ := ih rep
    obtain ⟨-, -, near, -⟩ := rep_side.mp whole
    exact ⟨f.value, near⟩

/-- Exchanging a subtree for another one with the same root, where nothing around it
changes. -/
theorem Rep.exchange (path : TreePath NodePtr) (rep : Rep t parent (plug path s))
    (root : rootPtr s' = rootPtr s) (inner : ∀ up, Rep t up s → Rep t' up s')
    (same : ∀ p ∈ values path, t'.nodes p = t.nodes p) :
    Rep t' parent (plug path s') := by
  induction path generalizing s s' with
  | nil => exact inner parent rep
  | cons f path ih =>
    simp only [values, List.cons_append, List.mem_cons, List.mem_append] at same
    refine ih rep (by simp) ?_ (fun p member => same p (.inr (.inr member)))
    intro up whole
    obtain ⟨valid, stores, near, far⟩ := rep_side.mp whole
    refine rep_side.mpr ⟨valid, ?_, inner _ near, ?_⟩
    · rw [same f.value (.inl rfl), root]
      exact stores
    · exact far.congr (fun p member => same p (.inr (.inl member)))

theorem root_ptr_plug (f : Frame NodePtr) (path : TreePath NodePtr) (s s' : ColorTree NodePtr) :
    rootPtr (plug (f :: path) s) = rootPtr (plug (f :: path) s') := by
  induction path generalizing f s s' with
  | nil => simp [plug]
  | cons g path ih => exact ih g _ _

/-- A position below another one. -/
theorem at_append {path' : TreePath NodePtr} :
    At t (plug path s) path' ↔ At t s (path ++ path') := by
  rw [← at_plug, ← plug_append, at_plug]

/-- The loop of `rb_remove` finds the leftmost node. -/
theorem leftmost_plug {c : Color} {q : NodePtr} {r : ColorTree NodePtr} (turns : Nat)
    (enough : path.length < turns) (towards : ∀ f ∈ path, f.dir = .left)
    (rep : Rep t parent (plug path (.node c .nil q r))) :
    leftmost turns t (rootPtr (plug path (.node c .nil q r))) = .ok q := by
  induction path using List.reverseRecOn generalizing parent turns with
  | nil =>
    obtain ⟨turns, rfl⟩ : ∃ k, turns = k + 1 := ⟨turns - 1, by omega⟩
    obtain ⟨valid, stores, -, -⟩ := rep
    have left : (t.nodes q).L = .null := stores.towards
    simp [leftmost, plug, rootPtr, valid, left]
  | append_singleton path f ih =>
    obtain ⟨turns, rfl⟩ : ∃ k, turns = k + 1 := ⟨turns - 1, by omega⟩
    have direction := towards f (by simp)
    obtain ⟨d, e, x, sib⟩ := f
    subst direction
    rw [plug_append] at rep ⊢
    obtain ⟨valid, stores, near, -⟩ := rep
    have left : (t.nodes x).L = rootPtr (plug path (.node c .nil q r)) := stores.towards
    have below := ih turns (by simpa using enough) (fun g member => towards g (by simp [member]))
      near
    have some : rootPtr (plug path (.node c .nil q r)) ≠ .null := by
      intro zero
      exact plug_ne_nil (by simp) ((root_ptr_ne near).mp zero)
    change leftmost (turns + 1) t x = .ok q
    simp only [leftmost, get_of_ne valid, bind_ok, left, ne_eq, some, not_false_eq_true,
      if_true, below]

end Subtrees

variable {p : NodePtr} {c : Color} {o : ColorTree NodePtr}

section OneChild

variable {d : Dir}

/-- A node with at most one child gives its place to that child. The node itself stays as
it was. -/
theorem splice_out (here : At t (side d c .nil p o) path) :
    ∃ t', spliceOut t p (rootPtr o) = .ok (rootPtr o, topPtr path, c, t') ∧ At t' o path ∧
      Keeps t t' (nodesAt (side d c .nil p o) path) ∧ t'.nodes p = t.nodes p := by
  obtain ⟨focus, around, distinct⟩ := here
  obtain ⟨valid, stores, -, repO⟩ := rep_side.mp focus
  rw [root_ptr_side] at around
  rw [nodes_at_side]
  have flat : (p :: (o.inorder ++ values path)).Nodup := by
    have same := ((inorder_side_perm d c .nil o p).append_right (values path)).nodup_iff
    simpa [inorder] using same.mp distinct
  obtain ⟨apart, rest⟩ := List.nodup_cons.mp flat
  rw [List.mem_append, not_or] at apart
  obtain ⟨uniqueO, uniqueP, disjoint⟩ := List.nodup_append.mp rest
  obtain ⟨t₁, adopted, repO₁, root₁, keeps₁⟩ := adopt_rep (topPtr path) repO uniqueO
  have around₁ : RepPath t₁ p path := by
    refine around.congr root₁ (fun q member => keeps₁.others q ?_)
    exact fun inside => disjoint q inside.2 q member rfl
  obtain ⟨t₂, relinked, around₂, keeps₂⟩ :=
    relink_path .left (rootPtr o) around₁ valid uniqueP apart.2
  refine ⟨t₂, ?_, ⟨?_, around₂, rest⟩, (keeps₁.mono ?_).trans (keeps₂.mono ?_), ?_⟩
  · simp only [spliceOut, get_of_ne valid, bind_ok, stores.parent, stores.color, adopted,
      relinked, pure_eq_ok]
  · refine repO₁.congr (fun q member => keeps₂.others q ?_)
    exact fun inside => disjoint q member q inside.2 rfl
  · rintro q ⟨-, member⟩
    exact .inr (by simp [values, member])
  · rintro q ⟨-, member⟩
    exact .inr (by simp [values, member])
  · rw [keeps₂.others p (fun inside => apart.2 inside.2),
      keeps₁.others p (fun inside => apart.1 inside.2)]

end OneChild

variable {e : Color}

section TwoChildren

variable {lp : TreePath NodePtr} {q v up : NodePtr} {shade : Color} {l r sib : ColorTree NodePtr}

theorem mem_leftmost (x : NodePtr) :
    x ∈ (plug (⟨.left, shade, v, sib⟩ :: lp) (.node e .nil q r)).inorder ↔
      x = q ∨ x ∈ r.inorder ∨ x = v ∨ x ∈ sib.inorder ∨ x ∈ values lp := by
  rw [(plug_perm ..).mem_iff]
  simp [inorder, values]

/-- The right child of a leftmost node takes its place. -/
theorem leftmost_out (rep : Rep t up (plug (⟨.left, shade, v, sib⟩ :: lp) (.node e .nil q r)))
    (distinct : (plug (⟨.left, shade, v, sib⟩ :: lp) (.node e .nil q r)).inorder.Nodup) :
    ∃ t', adopt t (rootPtr r) v = .ok t' ∧ t'.root = t.root ∧
      Rep (t'.update v (·.setChild .left (rootPtr r))) up (plug (⟨.left, shade, v, sib⟩ :: lp) r) ∧
      Keeps t (t'.update v (·.setChild .left (rootPtr r))) {x | x ∈ r.inorder ∨ x = v} := by
  rw [(plug_perm ..).nodup_iff] at distinct
  simp only [inorder, List.nil_append, List.cons_append, values, List.nodup_cons,
    List.mem_append, List.nodup_append] at distinct
  obtain ⟨-, uniqueR, uniqueV, apart⟩ := distinct
  simp only [not_or] at uniqueV
  obtain ⟨_, above⟩ := Rep.inner lp rep
  obtain ⟨validV, -, ⟨-, -, -, repR⟩, -⟩ := rep_side.mp above
  obtain ⟨t₁, adopted, repR₁, root₁, keeps₁⟩ := adopt_rep v repR uniqueR
  have early : ∀ x, x ∉ r.inorder → t₁.nodes x = t.nodes x :=
    fun x outside => keeps₁.others x (fun inside => outside inside.2)
  have notR : ∀ x, x = v ∨ x ∈ sib.inorder ∨ x ∈ values lp → x ∉ r.inorder :=
    fun x member inside => apart x inside x (by simpa [or_assoc] using member) rfl
  refine ⟨t₁, adopted, root₁, Rep.exchange lp rep (by simp) ?_ ?_,
    (keeps₁.mono fun x inside => .inl inside.2).trans
      ((Keeps.set_child t₁ v .left _).mono fun x inside => .inr inside)⟩
  · intro up whole
    obtain ⟨-, stores, -, far⟩ := rep_side.mp whole
    refine rep_side.mpr ⟨validV, ?_, repR₁.update (notR v (.inl rfl)), ?_⟩
    · rw [nodes_update_self, early v (notR v (.inl rfl))]
      constructor <;> simp [stores.parent, stores.color, stores.away]
    · refine far.congr (fun x member => ?_)
      rw [nodes_update_ne (by rintro rfl; exact uniqueV.1.1 member),
        early x (notR x (.inr (.inl member)))]
  · intro x member
    rw [nodes_update_ne (by rintro rfl; exact uniqueV.1.2 member),
      early x (notR x (.inr (.inr member)))]

/-- The right subtree without its leftmost node, below that node. -/
theorem unlink_successor (towards : ∀ f ∈ lp, f.dir = .left) (valid : p ≠ .null)
    (right : (t.nodes p).R = rootPtr (plug lp (.node e .nil q r)))
    (rep : Rep t p (plug lp (.node e .nil q r)))
    (distinct : (p :: (plug lp (.node e .nil q r)).inorder).Nodup) :
    ∃ t', unlinkSuccessor t p q (rootPtr r) (t.nodes q).getParent =
        .ok (topPtr (lp ++ [⟨.right, c, q, l⟩]), t') ∧
      Rep t' q (plug lp r) ∧ (t'.nodes q).R = rootPtr (plug lp r) ∧ t'.root = t.root ∧
      Keeps t t' {x | x ∈ (plug lp (.node e .nil q r)).inorder} := by
  cases lp with
  | nil =>
    obtain ⟨validQ, stores, -, repR⟩ := rep
    refine ⟨t, ?_, repR, stores.away, rfl, Keeps.refl t _⟩
    rw [unlinkSuccessor, if_pos stores.parent]
    rfl
  | cons f lp =>
    obtain ⟨d, shade, v, sib⟩ := f
    obtain rfl : d = .left := towards _ (List.mem_cons_self ..)
    obtain ⟨notP, unique⟩ := List.nodup_cons.mp distinct
    obtain ⟨t₁, adopted, root₁, rep₂, keeps₂⟩ := leftmost_out rep unique
    simp only [mem_leftmost, not_or] at notP ⊢
    have afterwards : ∀ x, x ∈ (plug (⟨.left, shade, v, sib⟩ :: lp) r).inorder ↔
        x ∈ r.inorder ∨ x = v ∨ x ∈ sib.inorder ∨ x ∈ values lp := by
      intro x
      rw [(plug_perm ..).mem_iff]
      simp [values]
    have remaining : (q :: (plug (⟨.left, shade, v, sib⟩ :: lp) r).inorder).Nodup := by
      rw [((plug_perm ..).cons q).nodup_iff]
      simpa [inorder] using (plug_perm ..).nodup_iff.mp unique
    obtain ⟨notQ, unique'⟩ := List.nodup_cons.mp remaining
    obtain ⟨_, above⟩ := Rep.inner lp rep
    obtain ⟨validV, -, ⟨validQ, storesQ, -, -⟩, -⟩ := rep_side.mp above
    -- the subtree gets the successor as its parent
    obtain ⟨t₄, reparented, rep₄, root₄, keeps₄⟩ :=
      adopt_rep q (rep₂.update (p := q)
        (f := (·.setChild .right (rootPtr (plug (⟨.left, shade, v, sib⟩ :: lp) r)))) notQ) unique'
    have some : rootPtr (plug (⟨.left, shade, v, sib⟩ :: lp) r) ≠ .null := by
      intro zero
      have empty := (root_ptr_ne rep₂).mp zero
      exact plug_ne_nil (by simp [side]) (show plug lp (side .left shade r v sib) = .nil from empty)
    rw [root_ptr_plug _ lp _ r] at right
    have keptP : (t₁.update v (·.setChild .left (rootPtr r))).nodes p = t.nodes p :=
      keeps₂.others p (by simp [notP])
    simp only [adopt, ne_eq, some, not_false_eq_true, if_true] at reparented
    refine ⟨t₄, ?_, rep₄, ?_, root₄.trans root₁, (keeps₂.mono ?_).trans
      (((Keeps.set_child _ q .right _).mono ?_).trans (keeps₄.mono ?_))⟩
    · rw [unlinkSuccessor, storesQ.parent, if_neg (Ne.symm notP.2.2.1)]
      simp only [adopted, bind_ok, modify_of_ne validV, get_of_ne valid, keptP, right,
        modify_of_ne validQ, reparented]
      rfl
    · rw [keeps₄.others q (fun inside => notQ inside.2), nodes_update_self]
      rfl
    · rintro x (member | rfl)
      · exact .inr (.inl member)
      · exact .inr (.inr (.inl rfl))
    · rintro x rfl
      exact .inl rfl
    · rintro x ⟨-, member⟩
      exact .inr ((afterwards x).mp member)

/-- The nodes that take part when a node gives its place to its successor. -/
theorem successor_distinct
    (distinct : ((node c l p (plug lp (.node e .nil q r))).inorder ++ values path).Nodup) :
    (p :: q :: (l.inorder ++ (plug lp r).inorder ++ values path)).Nodup := by
  refine (List.Perm.nodup_iff ?_).mp distinct
  have outer := plug_perm lp (.node e .nil q r)
  have inner := plug_perm lp r
  simp only [inorder] at outer ⊢
  grind

/-- A node `q` above the subtree `r` takes the place of `p`, whose left subtree it gets. -/
theorem take_place (validP : p ≠ .null) (validQ : q ≠ .null) (nonempty : l ≠ .nil)
    (stores : Stores (t.nodes p) (topPtr path) c .left (rootPtr l) up) (repL : Rep t p l)
    (repR : Rep t q r) (right : (t.nodes q).R = rootPtr r) (around : RepPath t q path)
    (distinct : (q :: (l.inorder ++ r.inorder ++ values path)).Nodup) :
    ∃ t', takePlace t p q = .ok t' ∧ At t' (.node c l q r) path ∧
      Keeps t t' {x | x = q ∨ x ∈ l.inorder} := by
  have whole := distinct
  simp only [List.nodup_cons, List.mem_append, not_or] at distinct
  obtain ⟨⟨⟨ql, qr⟩, qp⟩, rest⟩ := distinct
  obtain ⟨⟨uniqueL, -, lr⟩, -, apart⟩ := by simpa only [List.nodup_append] using rest
  have left : (t.nodes p).L = rootPtr l := stores.towards
  obtain ⟨t₁, reparented, repL₁, root₁, keeps₁⟩ := adopt_rep q
    ((repL.update (p := q)
      (f := fun n => { n with parentAndColor := (t.nodes p).parentAndColor }) ql).update
      (p := q) (f := (·.setChild .left (rootPtr l))) ql) uniqueL
  have final : ∀ x, x ≠ q → x ∉ l.inorder → t₁.nodes x = t.nodes x := by
    intro x other outside
    rw [keeps₁.others x (fun member => outside member.2), nodes_update_ne other,
      nodes_update_ne other]
  have some : rootPtr l ≠ .null := fun zero => nonempty ((root_ptr_ne repL).mp zero)
  simp only [adopt, ne_eq, some, not_false_eq_true, if_true] at reparented
  refine ⟨t₁, ?_, ⟨⟨validQ, ?_, repL₁, ?_⟩, ?_, ?_⟩, ?_⟩
  · simp only [takePlace, get_of_ne validP, bind_ok, modify_of_ne validQ, left,
      reparented]
  · rw [keeps₁.others q (fun member => ql member.2), nodes_update_self, nodes_update_self]
    exact ⟨stores.parent, stores.color, rfl, right⟩
  · refine repR.congr (fun x member => final x ?_ (fun also => lr x also x member rfl))
    rintro rfl
    exact qr member
  · refine around.congr root₁ (fun x onPath => final x ?_ ?_)
    · rintro rfl
      exact qp onPath
    · exact fun member => apart x (by simp [member]) x onPath rfl
  · exact nodup_node.mpr whole
  · refine Keeps.trans (Keeps.trans ((Keeps.update t q ?_).mono ?_)
      ((Keeps.set_child _ q .left _).mono ?_)) (keeps₁.mono fun x inside => .inr inside.2)
    · exact fun _ => rfl
    · exact fun x same => .inl same
    · exact fun x same => .inl same

/-- A node with two children gives its place to its successor. -/
theorem splice_successor (turns : Nat) (enough : lp.length < turns)
    (towards : ∀ f ∈ lp, f.dir = .left) (nonempty : l ≠ .nil)
    (here : At t (.node c l p (plug lp (.node e .nil q r))) path) :
    ∃ t', spliceSuccessor turns t p =
        .ok (rootPtr r, topPtr (lp ++ ⟨.right, c, q, l⟩ :: path), e, t') ∧
      At t' r (lp ++ ⟨.right, c, q, l⟩ :: path) ∧
      Keeps t t' (nodesAt (.node c l p (plug lp (.node e .nil q r))) path) := by
  obtain ⟨⟨valid, stores, repL, repR⟩, around, distinct⟩ := here
  have flat := successor_distinct distinct
  obtain ⟨notP, remaining⟩ := List.nodup_cons.mp flat
  simp only [List.nodup_cons, List.mem_cons, List.mem_append, not_or] at flat
  obtain ⟨⟨differ, ⟨pl, -⟩, pp⟩, ⟨⟨ql, qr⟩, qp⟩, rest⟩ := flat
  obtain ⟨⟨uniqueL, -, lr⟩, uniqueP, apart⟩ := by simpa only [List.nodup_append] using rest
  have inside : ∀ x, x ∈ (plug lp (.node e .nil q r)).inorder ↔ x = q ∨ x ∈ (plug lp r).inorder := by
    intro x
    rw [(plug_perm ..).mem_iff, (plug_perm ..).mem_iff]
    simp [inorder]
  have uniqueR : (p :: (plug lp (.node e .nil q r)).inorder).Nodup := by
    refine distinct.sublist ?_
    simp only [inorder, List.append_assoc]
    exact List.Sublist.trans (List.sublist_append_left _ (values path))
      (List.sublist_append_right l.inorder _)
  have pr := (List.nodup_cons.mp uniqueR).1
  have right : (t.nodes p).R = rootPtr (plug lp (.node e .nil q r)) := stores.away
  obtain ⟨_, validQ, storesQ, -, -⟩ := Rep.inner lp repR
  have child : (t.nodes q).R = rootPtr r := storesQ.away
  -- the place of the node points to its successor
  obtain ⟨t₁, relinked, around₁, keeps₁⟩ := relink_path .left q around valid uniqueP pp
  have early : ∀ x, x ∉ values path → t₁.nodes x = t.nodes x :=
    fun x outside => keeps₁.others x (fun member => outside member.2)
  have offPath : ∀ x ∈ (plug lp (.node e .nil q r)).inorder, x ∉ values path := by
    intro x member onPath
    rcases (inside x).mp member with rfl | member
    · exact qp onPath
    · exact apart x (by simp [member]) x onPath rfl
  -- the successor leaves its own place
  obtain ⟨t₂, unlinked, repR₂, right₂, root₂, keeps₂⟩ :=
    unlink_successor (t := t₁) (c := c) (l := l) towards valid (by rw [early p pp, right])
      (repR.congr fun x member => early x (offPath x member)) uniqueR
  have laterP : t₂.nodes p = t.nodes p := (keeps₂.others p pr).trans (early p pp)
  have repL₂ : Rep t₂ p l := by
    refine repL.congr (fun x member => ?_)
    have offRight : x ∉ (plug lp (.node e .nil q r)).inorder := by
      rw [inside]
      rintro (rfl | also)
      · exact ql member
      · exact lr x member x also rfl
    rw [keeps₂.others x offRight, early x (fun onPath => apart x (by simp [member]) x onPath rfl)]
  have around₂ : RepPath t₂ q path :=
    around₁.congr root₂ (fun x onPath => keeps₂.others x (fun member => offPath x member onPath))
  -- and takes the place of the node
  obtain ⟨t₃, placed, result, keeps₃⟩ := take_place valid validQ nonempty
    (by rw [laterP]; exact stores) repL₂ repR₂ right₂ around₂ remaining
  refine ⟨t₃, ?_, at_append.mp (at_child.mp (show At t₃ (side .right c _ q l) path from result)),
    (keeps₁.mono ?_).trans ((keeps₂.mono ?_).trans (keeps₃.mono ?_))⟩
  · have found := leftmost_plug turns enough towards repR
    have top : topPtr (lp ++ [⟨.right, c, q, l⟩]) = topPtr (lp ++ ⟨.right, c, q, l⟩ :: path) := by
      cases lp <;> rfl
    simp only [rootPtr] at relinked
    rw [early q qp] at unlinked
    simp only [spliceSuccessor, get_of_ne valid, bind_ok, right, found, stores.parent,
      relinked, get_of_ne validQ, early q qp, child, storesQ.color, unlinked, top, placed,
      pure_eq_ok]
  · exact fun x member => .inr member.2
  · exact fun x member => .inl (by simp only [inorder]; simp [member.out])
  · rintro x (rfl | member)
    · exact .inl (by simp only [inorder]; simp [inside])
    · exact .inl (by simp [inorder, member])

end TwoChildren

/-- A node `p` of the tree `s` has left it, and a position lost a node of colour `e`: the
tree `o` now stands where a node `q` stood above it and above an empty tree. -/
structure Spliced (t : RbTree) (s : ColorTree NodePtr) (p : NodePtr) (e : Color) (t' : RbTree)
    (o : ColorTree NodePtr) (path : TreePath NodePtr) : Prop where
  position : At t' o path
  keeps : Keeps t t' {x | x ∈ s.inorder}
  order : ∃ before after, s.inorder = before ++ p :: after ∧ (plug path o).inorder = before ++ after
  place : ∃ d q c n, (side d e .nil q o).Balanced c n ∧ TreePath.Balanced path c n
  bare : (t.nodes p).L = .null → t'.nodes p = t.nodes p

theorem nodes_at_plug (path : TreePath NodePtr) (s : ColorTree NodePtr) :
    nodesAt s path = {x | x ∈ (plug path s).inorder} := by
  simp only [nodesAt, (plug_perm path s).mem_iff, List.mem_append]

/-- The two ways of taking a node out. -/
theorem splice_spec {n : Nat} (turns : Nat) (enough : s.inorder.length ≤ turns) (here : At t s [])
    (balanced : s.Balanced .black n) (member : p ∈ s.inorder) :
    ∃ e t' o path, splice turns t p = .ok (rootPtr o, topPtr path, e, t') ∧
      Spliced t s p e t' o path := by
  obtain ⟨path, c, l, r, rfl⟩ := exists_position member
  have focus := at_plug.mp here
  obtain ⟨shade, k, inner, outer⟩ := balanced_of_plug balanced
  obtain ⟨valid, stores, repL, repR⟩ := focus.focus
  have left : (t.nodes p).L = rootPtr l := stores.towards
  have right : (t.nodes p).R = rootPtr r := stores.away
  rw [splice, get_of_ne valid, bind_ok, left, right]
  by_cases noLeft : l = .nil
  · subst noLeft
    obtain ⟨t', returns, position, keeps, same⟩ := splice_out (d := .left) focus
    refine ⟨c, t', r, path, returns, position, by rwa [← nodes_at_plug], ?_,
      ⟨.left, p, shade, k, inner, outer⟩, fun _ => same⟩
    refine ⟨before path, r.inorder ++ after path, ?_, ?_⟩ <;> simp
      [inorder_plug, inorder]
  · rw [if_neg (fun zero => noLeft ((root_ptr_ne repL).mp zero))]
    by_cases noRight : r = .nil
    · subst noRight
      obtain ⟨t', returns, position, keeps, same⟩ := splice_out (d := .right) focus
      refine ⟨c, t', l, path, returns, position, by rwa [← nodes_at_plug], ?_,
        ⟨.right, p, shade, k, inner, outer⟩, fun _ => same⟩
      refine ⟨before path ++ l.inorder, after path, ?_, ?_⟩ <;>
        simp [inorder_plug, inorder]
    · rw [if_neg (fun zero => noRight ((root_ptr_ne repR).mp zero))]
      obtain ⟨lp, e, q, r, towards, rfl⟩ := exists_leftmost noRight
      have short : lp.length < turns := by
        have outer := (plug_perm path (.node c l p (plug lp (.node e .nil q r)))).length_eq
        have inner := (plug_perm lp (.node e .nil q r)).length_eq
        have := length_le_values lp
        simp only [inorder, List.length_append, List.length_cons] at outer inner
        omega
      obtain ⟨t', returns, position, keeps⟩ := splice_successor turns short towards noLeft focus
      refine ⟨e, t', r, _, returns, position, by rwa [← nodes_at_plug], ?_, ?_, fun none => ?_⟩
      · refine ⟨before path ++ l.inorder,
          q :: (r.inorder ++ after lp ++ after path), ?_, ?_⟩
        · simp [inorder_plug, inorder, before_of_left towards]
        · simp [plug_append, inorder_plug, before_of_left towards, before,
            after]
      · have whole : plug path (.node c l p (plug lp (.node e .nil q r))) =
            plug (lp ++ ⟨.right, c, p, l⟩ :: path) (.node e .nil q r) := by
          rw [plug_append]
          rfl
        rw [whole] at balanced
        obtain ⟨shade, k, inner, outer⟩ := balanced_of_plug balanced
        exact ⟨.left, q, shade, k, inner, outer.change_value q⟩
      · exact absurd ((root_ptr_ne repL).mp (left.symm.trans none)) noLeft

/-- The rest of `rb_remove`: a black node that left its place calls for a repair. -/
theorem repair_spec (turns : Nat) (enough : path.length + 2 ≤ turns)
    (spliced : Spliced t s p e t' o path) :
    ∃ t'' s', (if e = .black then rbRemoveFixup turns t' (rootPtr o) (topPtr path) else .ok t') =
        .ok t'' ∧ At t'' s' [] ∧ (∃ n, s'.Balanced .black n) ∧
      s'.inorder = (plug path o).inorder ∧ Keeps t' t'' (nodesAt o path) := by
  obtain ⟨d, q, c, n, inner, outer⟩ := spliced.place
  cases e with
  | red =>
    obtain ⟨rfl, -, balanced⟩ := inner.of_side_red
    exact ⟨t', _, if_neg (by decide), at_plug.mpr spliced.position,
      outer.accepts_black.fill balanced, rfl, Keeps.refl t' _⟩
  | black =>
    obtain ⟨rfl, m, _, _, rfl, empty, balanced⟩ := inner.of_side_black
    obtain ⟨t'', returns, reached⟩ :=
      remove_fixup turns enough (Reached.start spliced.position) balanced outer
    exact ⟨t'', _, by rw [if_pos rfl, returns], reached.position,
      remove_fix_balanced balanced outer, inorder_remove_fix .., reached.keeps⟩

/-- What `rb_remove` does to a valid tree `s` with its node `p`. -/
structure Removed (t : RbTree) (s : ColorTree NodePtr) (p : NodePtr) (t' : RbTree)
    (s' : ColorTree NodePtr) : Prop where
  valid : RbValid t' s'
  keeps : Keeps t t' {x | x ∈ s.inorder}
  order : s'.inorder = s.inorder.erase p
  bare : (t.nodes p).L = .null → t'.nodes p = t.nodes p

/-- `rb_remove` returns on every valid tree and every node of it, in a number of turns
that the number of nodes bounds, and follows no NULL pointer. -/
theorem rb_remove_spec (turns : Nat) (enough : s.inorder.length + 2 ≤ turns)
    (valid : RbValid t s) (member : p ∈ s.inorder) :
    ∃ t' s', rbRemove turns t p = .ok t' ∧ Removed t s p t' s' := by
  obtain ⟨n, balanced⟩ := valid.balanced
  obtain ⟨e, t₁, o, path, returns, spliced⟩ :=
    splice_spec turns (by omega) valid.holds balanced member
  obtain ⟨before, after, whole, rest⟩ := spliced.order
  have subset : ∀ x ∈ (plug path o).inorder, x ∈ s.inorder := by
    rw [whole, rest]
    simp only [List.mem_append]
    tauto
  have short : path.length + 2 ≤ turns := by
    have count := (plug_perm path o).length_eq
    have := length_le_values path
    rw [rest] at count
    rw [whole] at enough
    simp only [List.length_append, List.length_cons] at count enough
    omega
  obtain ⟨t', s', repaired, holds, balanced', order, keeps⟩ := repair_spec turns short spliced
  rw [nodes_at_plug] at keeps
  have all : Keeps t t' {x | x ∈ s.inorder} := spliced.keeps.trans (keeps.mono subset)
  have absent : p ∉ before ++ after := by
    have distinct : s.inorder.Nodup := by simpa [values] using valid.holds.distinct
    rw [whole] at distinct
    exact (List.nodup_cons.mp (List.nodup_middle.mp distinct)).1
  have erased : s'.inorder = s.inorder.erase p := by
    rw [order, rest, whole]
    rw [List.erase_append_right _ (fun inside => absent (by simp [inside])), List.erase_cons_head]
  have untouched : t'.nodes p = t₁.nodes p := by
    apply keeps.others
    rw [rest]
    exact absent
  refine ⟨t', s', ?_, ⟨holds, balanced', ?_⟩, all, erased,
    fun none => untouched.trans (spliced.bare none)⟩
  · simp only [rbRemove, returns, bind_ok, pure_eq_ok, repaired]
  · simp only [all.keys, erased]
    exact valid.sorted.sublist List.erase_sublist

end Mftt
