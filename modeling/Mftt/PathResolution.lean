import Mftt.Dentries

/-!
# Path resolution

`vfs_get_dentry` against the component-wise reading of a path. The loop of
`vfs_get_parent_dentry` saves a component at its slash and resolves it at the next character that
is no slash, so a component before two slashes, or before a slash that ends the path, is never
resolved. That is the only way in which the loop differs from the reference; the rest of the
differences come from the last component and from `cname`.
-/

namespace Mftt.Vfs

/-- What stands between the slashes of a path. -/
def components (path : List Char) : List (List Char) := path.splitOn '/'

/-- The components that the loop resolves: those before the last that no empty one follows. -/
def walked : List (List Char) → List (List Char)
  | c :: next :: rest => if next = [] then walked (next :: rest) else c :: walked (next :: rest)
  | _ => []

/-- The last component. -/
def lastName (parts : List (List Char)) : List Char := parts.getLastD []

/-- The components of a path without its first slash. -/
def parts (path : List Char) : List (List Char) := components (relative path)

variable {listing : Listing} {s : Vfs}

/-- Resolve one component after the other. -/
def descend (listing : Listing) (s : Vfs) (par : Nat) :
    List (List Char) → Except Fault (Option Nat × Vfs)
  | [] => .ok (some par, s)
  | c :: rest =>
    resolve listing s par c >>= fun (found, s) =>
      match found with
      | none => .ok (none, s)
      | some par => descend listing s par rest

/-- What the loop returns after the components before the last. -/
def finish (last : List Char) (reached : Option Nat × Vfs) : Except Fault (Parent × Vfs) :=
  match reached.1 with
  | none => .ok (⟨none, none⟩, reached.2)
  | some par => .ok (⟨some par, some last⟩, reached.2)

theorem components_ne_nil (path : List Char) : components path ≠ [] := List.splitOn_ne_nil _ _

theorem components_head {ch : Char} (notSlash : ch ≠ '/') (path : List Char) :
    ∃ c rest, components (ch :: path) = (ch :: c) :: rest := by
  obtain ⟨c, rest, split⟩ := List.exists_cons_of_ne_nil (components_ne_nil path)
  refine ⟨c, rest, ?_⟩
  rw [components, List.splitOn_cons_eq_if_modifyHead, if_neg (by simpa using notSlash)]
  rw [components] at split
  rw [split]
  rfl

theorem copy_name_short {text : List Char} (short : text.length < D_NAME_LEN) :
    copyName text = .ok () := if_pos short

@[simp] theorem last_name_cons (c d : List Char) (rest : List (List Char)) :
    lastName (c :: d :: rest) = lastName (d :: rest) := by
  simp [lastName]

@[simp] theorem last_name_single (c : List Char) : lastName [c] = c := rfl

theorem last_name_cons_of_ne {parts : List (List Char)} (c : List Char) (some : parts ≠ []) :
    lastName (c :: parts) = lastName parts := by
  obtain ⟨d, rest, rfl⟩ := List.exists_cons_of_ne_nil some
  exact last_name_cons c d rest

/-- The loop resolves the components that `walked` lists and returns the last one. While `meet`
holds, `dname` counts as one more component in front. -/
theorem walk_eq (path since : List Char) (par : Nat) (dname : List Char) (meet : Bool)
    (noSlash : '/' ∉ since) (fresh : meet = true → since = [])
    (short : ∀ c ∈ components (since ++ path), c.length < D_NAME_LEN) :
    walk listing s par dname meet since path =
      descend listing s par
          (walked ((if meet then [dname] else []) ++ components (since ++ path))) >>=
        finish (lastName (components (since ++ path))) := by
  induction path generalizing s since par dname meet with
  | nil =>
    have single : components (since ++ []) = [since] := by
      rw [List.append_nil]
      exact List.splitOn_eq_singleton noSlash
    rw [single] at short ⊢
    rw [walk, copy_name_short (short since (by simp))]
    cases meet with
    | false => rfl
    | true =>
      cases fresh rfl
      rfl
  | cons ch path ih =>
    rw [walk]
    by_cases slash : ch = '/'
    · -- The component before the slash takes the place of the one that still waited.
      subst slash
      have split : components (since ++ '/' :: path) = since :: components path :=
        List.splitOn_append_cons_self_of_not_mem noSlash path
      rw [split] at short ⊢
      have next := ih (s := s) [] par since true (by simp) (fun _ => rfl)
        (fun c member => short c (List.mem_cons_of_mem _ member))
      rw [copy_name_short (short since (by simp)), next,
        last_name_cons_of_ne since (components_ne_nil path)]
      cases meet with
      | false => rfl
      | true =>
        cases fresh rfl
        rfl
    · rw [if_neg slash]
      have joined : since ++ ch :: path = (since ++ [ch]) ++ path := by simp
      have noSlash' : '/' ∉ since ++ [ch] := by
        simp only [List.mem_append, List.mem_singleton, not_or]
        exact ⟨noSlash, fun same => slash same.symm⟩
      cases meet with
      | false =>
        rw [if_neg (by simp)]
        have next := ih (s := s) (since ++ [ch]) par dname false noSlash' (by simp) (joined ▸ short)
        rw [next, ← joined]
      | true =>
        cases fresh rfl
        obtain ⟨c, rest, split⟩ := components_head slash path
        have next (s : Vfs) (par : Nat) := ih (s := s) [ch] par dname false noSlash' (by simp) short
        have resolved : walked ([dname] ++ components ([] ++ ch :: path)) =
            dname :: walked (components ([] ++ ch :: path)) := by
          rw [List.nil_append, split]
          rfl
        rw [if_pos rfl, if_pos rfl, resolved, descend]
        cases resolve listing s par dname with
        | error fault => rfl
        | ok reached =>
          obtain ⟨found, s⟩ := reached
          cases found with
          | none => rfl
          | some par => exact next s par

theorem get_parent_dentry_eq {path : List Char} (cwd : Option Nat)
    (short : ∀ c ∈ parts path, c.length < D_NAME_LEN) (some : relative path ≠ []) :
    vfsGetParentDentry listing s path cwd =
      descend listing s (origin path cwd) (walked (parts path)) >>=
        finish (lastName (parts path)) := by
  rw [vfsGetParentDentry, if_neg some]
  exact walk_eq (relative path) [] (origin path cwd) [] false (by simp) (by simp) short

variable {depth : Nat}

variable {d : Nat} {c : List Char} {names : List (List Char)}

section Reference

/-- The reference for one component: the empty one and `.` stay, `..` goes to the parent, and
the parent of the root is the root. -/
def component (s : Vfs) (d : Nat) (c : List Char) : Option Nat :=
  if c = [] ∨ c = ['.'] then some d
  else if c = ['.', '.'] then some ((s.dentry d).parent.getD ROOT)
  else s.child d c

/-- The reference for a path. -/
def reference (s : Vfs) (path : List Char) (cwd : Option Nat) : Option Nat :=
  (components path).foldlM s.component (origin path cwd)

theorem component_dot (s : Vfs) (d : Nat) : s.component d ['.'] = some d := if_pos (.inr rfl)

/-- A slash at the start adds an empty component. -/
theorem reference_eq (s : Vfs) (path : List Char) (cwd : Option Nat) :
    s.reference path cwd = (parts path).foldlM s.component (origin path cwd) := by
  cases path with
  | nil => rfl
  | cons ch path =>
    by_cases slash : ch = '/'
    · subst slash
      rfl
    · have kept : relative (ch :: path) = ch :: path := if_neg (by simpa using slash)
      rw [reference, parts, kept]

/-- A directory that `vfs_get_dentry` would try to read. -/
def unread (s : Vfs) (d : Nat) : Bool :=
  match s.dirInode d with
  | none => false
  | some dir => (s.inode dir).op = some .fatfs ∧ (s.dentry d).loaded = false

/-- A component is looked up in vain in a dentry that `vfs_get_dentry` would try to read. -/
def blocked (s : Vfs) : Nat → List (List Char) → Bool
  | _, [] => false
  | d, c :: rest =>
    match s.component d c with
    | some d' => s.blocked d' rest
    | none => s.unread d

/-- How far a dentry is from the root. -/
inductive AtDepth (s : Vfs) : Nat → Nat → Prop
  | root : AtDepth s 0 ROOT
  | child {depth d c : Nat} : AtDepth s depth d → c ∈ (s.dentry d).subdirs →
      AtDepth s (depth + 1) c

/-- A tree of dentries whose directories have all been read. -/
structure FullyLoaded (s : Vfs) : Prop where
  root_parent : (s.dentry ROOT).parent = none
  child_parent : ∀ d < s.dentries, ∀ c ∈ (s.dentry d).subdirs,
    c < s.dentries ∧ (s.dentry c).parent = some d
  reached : ∀ d < s.dentries, ∃ depth, s.AtDepth depth d
  root_lt : ROOT < s.dentries
  loaded : ∀ d < s.dentries, s.unread d = true → ∀ dir ∈ s.dirInode d, (s.inode dir).type ≠ .dir

variable {name : List Char}

theorem child_mem {c : Nat} (found : s.child d name = some c) :
    c ∈ (s.dentry d).subdirs := List.mem_of_find?_eq_some found

theorem child_name {c : Nat} (found : s.child d name = some c) : (s.dentry c).name = name := by
  have := List.find?_some found
  simpa using this

theorem FullyLoaded.at_depth_lt (tree : FullyLoaded s) (far : s.AtDepth depth d) :
    d < s.dentries := by
  induction far with
  | root => exact tree.root_lt
  | child _ member ih =>
    exact (tree.child_parent _ ih _ member).1

theorem FullyLoaded.component_lt (tree : FullyLoaded s) {d' : Nat} (member : d < s.dentries)
    (goes : s.component d c = some d') : d' < s.dentries := by
  rw [component] at goes
  split at goes
  · cases goes
    exact member
  · split at goes
    · cases goes
      obtain ⟨depth, far⟩ := tree.reached d member
      cases far with
      | root =>
        rw [tree.root_parent]
        exact tree.root_lt
      | child below inside =>
        have above := tree.at_depth_lt below
        rw [(tree.child_parent _ above _ inside).2]
        exact above
    · exact (tree.child_parent d member _ (child_mem goes)).1

theorem FullyLoaded.fold_lt (tree : FullyLoaded s) {d' : Nat} (member : d < s.dentries)
    (goes : names.foldlM s.component d = some d') : d' < s.dentries := by
  induction names generalizing d with
  | nil =>
    cases goes
    exact member
  | cons c rest ih =>
    obtain ⟨next, step, later⟩ := Option.bind_eq_some_iff.mp goes
    exact ih (tree.component_lt member step) later

end Reference

variable {cwd : Option Nat}

section Loaded

variable {path : List Char}

/-- In a tree that was read, a search in vain panics where it would read a regular file as a
directory. -/
theorem FullyLoaded.search_eq (tree : FullyLoaded s) (member : d < s.dentries) (name : List Char) :
    search listing s d name =
      if s.child d name = none ∧ s.unread d then kpanic "Must be dir."
      else .ok (s.child d name, s) := by
  rw [search]
  cases found : s.child d name with
  | some c => simp
  | none =>
    simp only [true_and]
    rw [load]
    cases inode : s.dirInode d with
    | none =>
      have read : s.unread d = false := by rw [unread, inode]
      simp [read, found]
    | some dir =>
      by_cases reads : (s.inode dir).op = some .fatfs ∧ (s.dentry d).loaded = false
      · have tried : s.unread d = true := by
          rw [unread, inode]
          simpa using reads
        have notDir := tree.loaded d member tried dir inode
        rw [if_pos tried]
        simp only [if_pos reads, readDir, Mftt.assert, if_neg notDir]
        rfl
      · have read : s.unread d = false := by
          rw [unread, inode]
          simpa using reads
        simp [reads, read, found]

/-- One component before the last, in a tree that was read. -/
theorem FullyLoaded.resolve_eq (tree : FullyLoaded s) (member : d < s.dentries) (c : List Char) :
    resolve listing s d c =
      if s.component d c = none ∧ s.unread d then kpanic "Must be dir."
      else .ok (s.component d c, s) := by
  rw [resolve, component]
  by_cases stays : c = [] ∨ c = ['.']
  · have notUp : c ≠ ['.', '.'] := by
      rcases stays with rfl | rfl <;> decide
    simp [stays, notUp]
  · by_cases up : c = ['.', '.']
    · simp [up]
    · simp only [if_neg stays, if_neg up]
      exact tree.search_eq member c

/-- The components before the last, in a tree that was read. -/
theorem FullyLoaded.descend_eq (tree : FullyLoaded s) (member : d < s.dentries)
    (names : List (List Char)) :
    descend listing s d names =
      if s.blocked d names then kpanic "Must be dir." else .ok (names.foldlM s.component d, s) := by
  induction names generalizing d with
  | nil => rfl
  | cons c rest ih =>
    rw [descend, tree.resolve_eq member, blocked, List.foldlM_cons]
    cases goes : s.component d c with
    | none =>
      cases s.unread d <;> rfl
    | some d' =>
      exact ih (tree.component_lt member goes)

/-- How far the kernel gets before the last component. -/
def reachedBy (s : Vfs) (path : List Char) (cwd : Option Nat) : Option Nat :=
  (walked (parts path)).foldlM s.component (origin path cwd)

theorem FullyLoaded.get_dentry_eq (tree : FullyLoaded s) (member : origin path cwd < s.dentries)
    (stale : List Char) (short : ∀ c ∈ parts path, c.length < D_NAME_LEN)
    (some : relative path ≠ []) :
    vfsGetDentry listing s path cwd stale =
      if s.blocked (origin path cwd) (walked (parts path)) then kpanic "Must be dir."
      else
        match s.reachedBy path cwd with
        | none => .ok (if stale = ['/'] then .some ROOT else none, s)
        | .some d =>
          if lastName (parts path) = ['.', '.'] then .ok ((s.dentry d).parent, s)
          else if lastName (parts path) = ['.'] then .ok (.some d, s)
          else search listing s d (lastName (parts path)) := by
  rw [vfsGetDentry, get_parent_dentry_eq cwd short some, tree.descend_eq member, reachedBy]
  split
  · rfl
  · cases (walked (parts path)).foldlM s.component (origin path cwd) <;> rfl

/-- A last component is looked up in vain in a dentry that `vfs_get_dentry` would try to read. -/
def inVain (s : Vfs) (d : Nat) (last : List Char) : Prop :=
  last ≠ ['.'] ∧ last ≠ ['.', '.'] ∧ s.child d last = none ∧ s.unread d = true

instance (d : Nat) (last : List Char) : Decidable (s.inVain d last) :=
  inferInstanceAs (Decidable (_ ∧ _ ∧ _ ∧ _))

/-- The kernel and the reference agree on a path. -/
def Agrees (listing : Listing) (s : Vfs) (path : List Char) (cwd : Option Nat)
    (stale : List Char) : Prop :=
  vfsGetDentry listing s path cwd stale = .ok (s.reference path cwd, s)

/-- When a path is resolved as the reference says. What comes behind the first missing component is
not looked at. -/
structure Resolvable (s : Vfs) (path : List Char) (cwd : Option Nat) (stale : List Char) :
    Prop where
  -- The empty path stands for the root.
  nonempty : path = [] → cwd.getD ROOT = ROOT
  -- No component is looked up in vain in a regular file.
  directories : s.blocked (origin path cwd) (walked (parts path)) = false
  file : relative path ≠ [] → ∀ d ∈ s.reachedBy path cwd, ¬s.inVain d (lastName (parts path))
  -- Where a component before the last is missing, the reference misses one too; if `cname` happens
  -- to hold a slash it leads to the root.
  missing : s.reachedBy path cwd = none →
    s.reference path cwd = if stale = ['/'] then some ROOT else none
  -- A slash at the end stands for a child with an empty name.
  slash : relative path ≠ [] → lastName (parts path) = [] → ∀ d ∈ s.reachedBy path cwd,
    s.reference path cwd = s.child d []
  -- A last `..` at the root leads nowhere.
  above : lastName (parts path) = ['.', '.'] → s.reachedBy path cwd = some ROOT →
    s.reference path cwd = none
  -- In all other cases the components that were lost before slashes make no difference.
  lost : lastName (parts path) ≠ [] → ∀ d ∈ s.reachedBy path cwd,
    (lastName (parts path) = ['.', '.'] → d ≠ ROOT) →
    s.reference path cwd = s.component d (lastName (parts path))

theorem relative_eq_nil : relative path = [] ↔ path = [] ∨ path = ['/'] := by
  cases path with
  | nil => simp [relative]
  | cons ch path =>
    by_cases slash : ch = '/'
    · simp [relative, slash]
    · simp [relative, slash]

theorem parts_of_nil (empty : relative path = []) : parts path = [[]] := by
  rw [parts, empty]
  rfl

theorem get_dentry_root (cwd : Option Nat) (stale : List Char) (empty : relative path = []) :
    vfsGetDentry listing s path cwd stale = .ok (some ROOT, s) := by
  rw [vfsGetDentry, vfsGetParentDentry, if_pos empty]
  rfl

theorem FullyLoaded.origin_lt (tree : FullyLoaded s) (path : List Char)
    (valid : ∀ d ∈ cwd, d < s.dentries) : origin path cwd < s.dentries := by
  rw [origin]
  split
  · exact tree.root_lt
  · cases cwd with
    | none => exact tree.root_lt
    | some d => exact valid d rfl

/-- There the kernel follows the reference exactly where the reference gives the root, too. -/
theorem agrees_root_iff (stale : List Char) (empty : relative path = []) :
    Agrees listing s path cwd stale ↔ s.Resolvable path cwd stale := by
  have only := parts_of_nil empty
  have reads : s.reference path cwd = some (origin path cwd) := by
    rw [reference_eq, only]
    rfl
  have reached : s.reachedBy path cwd = some (origin path cwd) := by
    rw [reachedBy, only]
    rfl
  rw [Agrees, get_dentry_root cwd stale empty, reads, Except.ok.injEq, Prod.mk.injEq,
    Option.some.injEq, and_iff_left rfl]
  constructor
  · intro same
    refine ⟨?_, by simp [only, walked, blocked], fun some => absurd empty some, by simp [reached],
      fun some => absurd empty some, by simp [only], by simp [only]⟩
    rintro rfl
    exact same.symm
  · intro resolvable
    rcases relative_eq_nil.mp empty with rfl | rfl
    · exact (resolvable.nonempty rfl).symm
    · rfl

theorem FullyLoaded.parent_eq_none (tree : FullyLoaded s) (member : d < s.dentries) :
    (s.dentry d).parent = none ↔ d = ROOT := by
  constructor
  · intro orphan
    obtain ⟨depth, far⟩ := tree.reached d member
    cases far with
    | root => rfl
    | child below inside =>
      rw [(tree.child_parent _ (tree.at_depth_lt below) _ inside).2] at orphan
      cases orphan
  · rintro rfl
    exact tree.root_parent

/-- The last component: here the empty one is a name, and the root has no parent. -/
theorem FullyLoaded.last_eq (listing : Listing) (tree : FullyLoaded s) (member : d < s.dentries)
    (last : List Char) :
    (if last = ['.', '.'] then .ok ((s.dentry d).parent, s)
      else if last = ['.'] then .ok (.some d, s)
      else search listing s d last) =
      if s.inVain d last then kpanic "Must be dir."
      else .ok (if last = [] then s.child d []
        else if last = ['.', '.'] ∧ d = ROOT then none else s.component d last, s) := by
  by_cases up : last = ['.', '.']
  · subst up
    have toRoot := tree.parent_eq_none member
    have sought : ¬s.inVain d ['.', '.'] := fun vain => vain.2.1 rfl
    rw [if_pos rfl, if_neg sought, if_neg (by simp)]
    cases parent : (s.dentry d).parent with
    | none => simp [toRoot.mp parent]
    | some above =>
      have notRoot : d ≠ ROOT := fun same => by
        rw [toRoot.mpr same] at parent
        cases parent
      simp [component, parent, notRoot]
  · rw [if_neg up]
    by_cases stays : last = ['.']
    · subst stays
      have sought : ¬s.inVain d ['.'] := fun vain => vain.1 rfl
      rw [if_pos rfl, if_neg sought]
      simp [component]
    · rw [if_neg stays, tree.search_eq member]
      have looked : (s.child d last = none ∧ s.unread d = true) ↔ s.inVain d last :=
        ⟨fun vain => ⟨stays, up, vain⟩, fun vain => vain.2.2⟩
      by_cases none : last = []
      · subst none
        simp only [looked, if_pos]
      · have component : s.component d last = s.child d last := by
          simp [component, none, stays, up]
        simp only [looked, none, up, component, if_false, false_and]

/-- The kernel follows the reference exactly where the path is resolvable. -/
theorem FullyLoaded.agrees_iff (tree : FullyLoaded s) (member : origin path cwd < s.dentries)
    (stale : List Char) (short : ∀ c ∈ parts path, c.length < D_NAME_LEN)
    (some : relative path ≠ []) :
    Agrees listing s path cwd stale ↔ s.Resolvable path cwd stale := by
  have notEmpty : path ≠ [] := fun none => some (by rw [none]; rfl)
  rw [Agrees, tree.get_dentry_eq member stale short some]
  cases blocks : s.blocked (origin path cwd) (walked (parts path)) with
  | true =>
    refine ⟨fun same => ?_, fun resolvable => ?_⟩
    · cases same
    · rw [resolvable.directories] at blocks
      cases blocks
  | false =>
    cases reached : s.reachedBy path cwd with
    | none =>
      rw [if_neg (by decide), Except.ok.injEq, Prod.mk.injEq, and_iff_left rfl]
      refine ⟨fun same => ?_, fun resolvable => (resolvable.missing reached).symm⟩
      exact ⟨fun none => absurd none notEmpty, blocks, by simp [reached], fun _ => same.symm,
        by simp [reached], by simp [reached], by simp [reached]⟩
    | some d =>
      dsimp only
      rw [if_neg (by decide), tree.last_eq listing (tree.fold_lt member reached)]
      by_cases vain : s.inVain d (lastName (parts path))
      · rw [if_pos vain]
        refine ⟨fun same => ?_, fun resolvable => absurd vain (resolvable.file some d reached)⟩
        cases same
      · rw [if_neg vain, Except.ok.injEq, Prod.mk.injEq, and_iff_left rfl]
        have only {d' : Nat} (again : s.reachedBy path cwd = .some d') : d' = d :=
          Option.some.inj (again.symm.trans reached)
        constructor
        · intro same
          refine ⟨fun none => absurd none notEmpty, blocks, ?_, by simp [reached], ?_, ?_, ?_⟩
          · rintro - d' again
            exact only again ▸ vain
          · rintro - empty d' again
            rw [only again, ← same, if_pos empty]
          · intro up again
            rw [← same, if_neg (by simp [up]), if_pos ⟨up, (only again).symm⟩]
          · intro filled d' again elsewhere
            cases only again
            rw [← same, if_neg filled, if_neg fun atRoot => elsewhere atRoot.1 atRoot.2]
        · intro resolvable
          split
          · rename_i empty
            exact (resolvable.slash some empty d reached).symm
          · rename_i filled
            split
            · rename_i atRoot
              exact (resolvable.above atRoot.1 (atRoot.2 ▸ reached)).symm
            · rename_i notRoot
              exact (resolvable.lost filled d reached fun up same => notRoot ⟨up, same⟩).symm

end Loaded

section FullTree

/-- The tree in which every dentry near the root has a child of each of some names: the children
of `x` are the numbers from `k x + 1` to `k x + k`. -/
def fullTree (names : List (List Char)) (levels : Nat) : Vfs where
  dentry x :=
    { parent := if x = 0 then none else some ((x - 1) / names.length)
      name := names.getD ((x - 1) % names.length) []
      type := .dir
      loaded := true
      subdirs := ((List.range names.length).map fun j => names.length * x + 1 + j).filter
        (· < (names.length + 1) ^ levels) }
  dentries := (names.length + 1) ^ levels
  inode _ := {}
  inodes := 0

variable {levels : Nat}

theorem full_tree_subdirs {x c : Nat} :
    c ∈ ((fullTree names levels).dentry x).subdirs ↔
      c < (names.length + 1) ^ levels ∧ ∃ j < names.length, c = names.length * x + 1 + j := by
  simp only [fullTree, List.mem_filter, List.mem_map, List.mem_range, decide_eq_true_eq]
  constructor
  · rintro ⟨⟨j, less, rfl⟩, small⟩
    exact ⟨small, j, less, rfl⟩
  · rintro ⟨small, j, less, rfl⟩
    exact ⟨⟨j, less, rfl⟩, small⟩

theorem full_tree_parent {x j : Nat} (less : j < names.length) :
    ((fullTree names levels).dentry (names.length * x + 1 + j)).parent = some x := by
  have quotient : (names.length * x + 1 + j - 1) / names.length = x := by
    rw [show names.length * x + 1 + j - 1 = names.length * x + j by omega,
      Nat.mul_add_div (by omega), Nat.div_eq_of_lt less, Nat.add_zero]
  show (if names.length * x + 1 + j = 0 then none else _) = _
  rw [if_neg (by omega), quotient]

theorem full_tree_loaded (names : List (List Char)) (levels : Nat) :
    (fullTree names levels).FullyLoaded where
  root_parent := rfl
  child_parent := by
    intro d _ c member
    obtain ⟨small, j, less, rfl⟩ := full_tree_subdirs.mp member
    exact ⟨small, full_tree_parent less⟩
  reached := by
    intro d
    induction d using Nat.strong_induction_on with
    | _ d ih =>
      intro small
      by_cases zero : d = 0
      · subst zero
        exact ⟨0, .root⟩
      · have someName : 0 < names.length := by
          by_contra none
          have noNames : names.length = 0 := by omega
          have : d < 1 := by simpa [fullTree, noNames] using small
          omega
        have division := Nat.div_add_mod (d - 1) names.length
        have remainder := Nat.mod_lt (d - 1) someName
        have lower : (d - 1) / names.length < d :=
          lt_of_le_of_lt (Nat.div_le_self _ _) (by omega)
        obtain ⟨depth, far⟩ := ih _ lower (lt_trans lower small)
        exact ⟨depth + 1, far.child (full_tree_subdirs.mpr ⟨small, _, remainder, by omega⟩)⟩
  root_lt := Nat.pos_of_ne_zero (by simp [fullTree])
  loaded := by
    intro d _ tried
    cases tried

/-- A component that names a child. -/
def Named (c : List Char) : Prop := c ≠ [] ∧ c ≠ ['.'] ∧ c ≠ ['.', '.']

instance (c : List Char) : Decidable (Named c) := inferInstanceAs (Decidable (_ ∧ _ ∧ _))

end FullTree

/-- For the reference, `/.` at the end changes nothing. -/
theorem reference_dot (s : Vfs) {path : List Char} (cwd : Option Nat) (some : path ≠ []) :
    s.reference (path ++ ['/', '.']) cwd = s.reference path cwd := by
  have split : components (path ++ ['/', '.']) = components path ++ [['.']] :=
    List.splitOn_append_cons_self path ['.']
  have starts : origin (path ++ ['/', '.']) cwd = origin path cwd := by
    obtain ⟨ch, rest, rfl⟩ := List.exists_cons_of_ne_nil some
    rfl
  rw [reference, reference, split, starts, List.foldlM_append]
  cases (components path).foldlM s.component (origin path cwd) with
  | none => rfl
  | some d => exact congrArg (· >>= pure) (component_dot s d)

theorem parts_subset {path : List Char} (member : c ∈ parts path) : c ∈ components path := by
  cases path with
  | nil => exact member
  | cons ch rest =>
    by_cases slash : ch = '/'
    · subst slash
      exact List.mem_cons_of_mem _ member
    · have kept : relative (ch :: rest) = ch :: rest := if_neg (by simpa using slash)
      rwa [parts, kept] at member

theorem init_loaded : init.FullyLoaded where
  root_parent := rfl
  child_parent := by decide
  reached := by
    intro d small
    match d, small with
    | 0, _ => exact ⟨0, .root⟩
    | 1, _ => exact ⟨1, .child .root (by decide)⟩
    | 2, _ => exact ⟨1, .child .root (by decide)⟩
  root_lt := by decide
  loaded := by
    intro d small tried
    match d, small with
    | 0, _ => cases tried
    | 1, _ => cases tried
    | 2, _ => cases tried

end Mftt.Vfs
