import Mathlib.Data.List.Nodup
import Mathlib.Data.Set.Insert
import Mathlib.Logic.Function.Basic

/-!
# Trees of tables in memory

A memory gives the entry at each index of each page; some entries point to a further
page. Following a sequence of indices from a root page reads one entry at a time. A
tree of some depth is a root from which no page is met along two different sequences
of at most that many indices. Two changes keep such a tree: a write to a table at the
full depth, which points nowhere, and a new table below an entry that pointed nowhere.
Pages and entries are arbitrary types.
-/

namespace RadixTree

open Function

variable {P E : Type*} (child : E → Option P)

/-- The page met after the entries at the given indices, from a first page. -/
def follow (mem : P → Nat → E) : List Nat → P → Option P
  | [], page => some page
  | index :: path, page => (child (mem page index)).bind (follow mem path)

/-- Pages met within `depth` indices from the root are in `owned`, and each is met along one
sequence of indices only. -/
structure Tree (mem : P → Nat → E) (depth : Nat) (root : P) (owned : Set P) : Prop where
  owns : ∀ path page, path.length ≤ depth → follow child mem path root = some page → page ∈ owned
  unique : ∀ path path' page, path.length ≤ depth → path'.length ≤ depth →
    follow child mem path root = some page → follow child mem path' root = some page →
    path = path'

/-- The memory with one entry replaced. -/
def write [DecidableEq P] (mem : P → Nat → E) (page : P) (index : Nat) (entry : E) :
    P → Nat → E :=
  update mem page (update (mem page) index entry)

section

variable [DecidableEq P] (mem : P → Nat → E) (page : P) (index : Nat) (entry : E)

@[simp] theorem write_self : write mem page index entry page index = entry := by
  simp [write]

theorem write_of_ne {other : P} {index' : Nat} (different : other ≠ page ∨ index' ≠ index) :
    write mem page index entry other index' = mem other index' := by
  rcases different with other_page | other_index
  · rw [write, update_of_ne other_page]
  · by_cases same : other = page
    · rw [same, write, update_self, update_of_ne other_index]
    · rw [write, update_of_ne same]

end

variable {child} {mem mem' : P → Nat → E} {depth : Nat} {root : P} {owned : Set P}

theorem follow_append (path path' : List Nat) (root : P) :
    follow child mem (path ++ path') root =
      (follow child mem path root).bind (follow child mem path') := by
  induction path generalizing root with
  | nil => rfl
  | cons index path ih =>
    rw [List.cons_append, follow, follow, Option.bind_assoc]
    congr 1
    funext page
    exact ih page

theorem follow_snoc (path : List Nat) (index : Nat) (root : P) :
    follow child mem (path ++ [index]) root =
      (follow child mem path root).bind fun page => child (mem page index) := by
  rw [follow_append]
  simp [follow]

/-- Following reads only the entries of the pages met on the way. -/
theorem follow_congr {path : List Nat}
    (same : ∀ before index page, before ++ [index] <+: path →
      follow child mem before root = some page → child (mem' page index) = child (mem page index)) :
    follow child mem' path root = follow child mem path root := by
  induction path generalizing root with
  | nil => rfl
  | cons index path ih =>
    have first : child (mem' root index) = child (mem root index) :=
      same [] index root (by simp) rfl
    rw [follow, follow, first]
    cases below : child (mem root index) with
    | none => rfl
    | some page =>
      apply ih
      intro before index' page' isPrefix met
      apply same (index :: before) index' page'
      · exact List.prefix_cons_inj index |>.mpr isPrefix
      · rw [follow, below]
        exact met

/-- The pages of a tree depend only on the entries of the pages it owns. -/
theorem follow_of_owned (tree : Tree child mem depth root owned)
    (same : ∀ page ∈ owned, ∀ index, child (mem' page index) = child (mem page index))
    {path : List Nat} (short : path.length ≤ depth) :
    follow child mem' path root = follow child mem path root := by
  apply follow_congr
  intro before index page isPrefix met
  have shorter := isPrefix.length_le
  rw [List.length_append] at shorter
  exact same page (tree.owns before page (by omega) met) index

/-- A tree stays one when the pages it owns keep what their entries point to. -/
theorem tree_of_owned (tree : Tree child mem depth root owned) {wider : Set P}
    (included : owned ⊆ wider)
    (same : ∀ page ∈ owned, ∀ index, child (mem' page index) = child (mem page index)) :
    Tree child mem' depth root wider := by
  constructor
  · intro path page short met
    rw [follow_of_owned tree same short] at met
    exact included (tree.owns path page short met)
  · intro path path' page short short' met met'
    rw [follow_of_owned tree same short] at met
    rw [follow_of_owned tree same short'] at met'
    exact tree.unique path path' page short short' met met'

section

variable [DecidableEq P] {path path' : List Nat} {page : P} {index : Nat} {entry : E}

section

variable (tree : Tree child mem depth root owned)
include tree

theorem follow_write_leaf (full : path.length = depth)
    (met : follow child mem path root = some page) (short : path'.length ≤ depth) :
    follow child (write mem page index entry) path' root = follow child mem path' root := by
  apply follow_congr
  intro before index' page' isPrefix met'
  have shorter := isPrefix.length_le
  rw [List.length_append, List.length_singleton] at shorter
  by_cases same : page' = page
  · subst same
    have equal := tree.unique before path page' (by omega) (by omega) met' met
    rw [equal] at shorter
    omega
  · rw [write_of_ne _ _ _ _ (.inl same)]

theorem tree_write_leaf (full : path.length = depth)
    (met : follow child mem path root = some page) :
    Tree child (write mem page index entry) depth root owned := by
  constructor
  · intro path' page' short met'
    rw [follow_write_leaf tree full met short] at met'
    exact tree.owns path' page' short met'
  · intro path₁ path₂ page' short₁ short₂ met₁ met₂
    rw [follow_write_leaf tree full met short₁] at met₁
    rw [follow_write_leaf tree full met short₂] at met₂
    exact tree.unique path₁ path₂ page' short₁ short₂ met₁ met₂

/-- A write to one entry is not seen along sequences that do not pass through it. -/
theorem follow_write_beside (below : path.length ≤ depth)
    (met : follow child mem path root = some page) (short : path'.length ≤ depth)
    (beside : ¬ path ++ [index] <+: path') :
    follow child (write mem page index entry) path' root = follow child mem path' root := by
  apply follow_congr
  intro before index' page' isPrefix met'
  by_cases same : page' = page ∧ index' = index
  · obtain ⟨rfl, rfl⟩ := same
    have shorter := isPrefix.length_le
    rw [List.length_append] at shorter
    have equal := tree.unique before path page' (by omega) below met' met
    rw [equal] at isPrefix
    exact absurd isPrefix beside
  · rw [write_of_ne _ _ _ _ (not_and_or.mp same)]

end

variable {fresh : P}

variable (tree : Tree child mem depth root owned) (below : path.length < depth)
  (met : follow child mem path root = some page) (empty : child (mem page index) = none)
  (points : child entry = some fresh)
include tree below met empty points

/-- A new table is met along one sequence of indices, and everything else as before. -/
theorem follow_attach (isFresh : fresh ∉ owned) (blank : ∀ i, child (mem fresh i) = none)
    (short : path'.length ≤ depth) :
    follow child (write mem page index entry) path' root =
      if path' = path ++ [index] then some fresh else follow child mem path' root := by
  by_cases passes : path ++ [index] <+: path'
  · obtain ⟨rest, rfl⟩ := passes
    have other : fresh ≠ page := by
      rintro rfl
      exact isFresh (tree.owns path fresh (by omega) met)
    have reaches : follow child (write mem page index entry) (path ++ [index]) root =
        some fresh := by
      have shorter : ¬ path ++ [index] <+: path := by
        intro longer
        have := longer.length_le
        rw [List.length_append, List.length_singleton] at this
        omega
      have before : follow child (write mem page index entry) path root =
          follow child mem path root :=
        follow_write_beside tree (by omega) met (by omega) shorter
      rw [follow_snoc, before, met, Option.bind_some, write_self, points]
    rw [follow_append, reaches, Option.bind_some]
    cases rest with
    | nil => simp [follow]
    | cons index' rest =>
      have nothing : follow child mem (path ++ [index]) root = none := by
        rw [follow_snoc, met, Option.bind_some, empty]
      rw [if_neg (by simp), follow_append, nothing, follow, write_of_ne _ _ _ _ (.inl other), blank]
      rfl
  · rw [follow_write_beside tree (by omega) met short passes, if_neg]
    rintro rfl
    exact passes (List.prefix_refl _)

theorem tree_attach (isFresh : fresh ∉ owned) (blank : ∀ i, child (mem fresh i) = none) :
    Tree child (write mem page index entry) depth root (insert fresh owned) := by
  constructor
  · intro path' page' short met'
    rw [follow_attach tree below met empty points isFresh blank short] at met'
    split at met'
    · cases met'
      exact Set.mem_insert fresh owned
    · exact Set.mem_insert_of_mem fresh (tree.owns path' page' short met')
  · intro path₁ path₂ page' short₁ short₂ met₁ met₂
    rw [follow_attach tree below met empty points isFresh blank short₁] at met₁
    rw [follow_attach tree below met empty points isFresh blank short₂] at met₂
    split at met₁ <;> split at met₂
    · rename_i same₁ same₂
      rw [same₁, same₂]
    · cases met₁
      exact absurd (tree.owns path₂ fresh short₂ met₂) isFresh
    · cases met₂
      exact absurd (tree.owns path₁ fresh short₁ met₁) isFresh
    · exact tree.unique path₁ path₂ page' short₁ short₂ met₁ met₂

end

end RadixTree
