import Mftt.PathResolution
import Mftt.Slices
import Mftt.SystemCalls
import Mathlib.Data.Fintype.Card
import Mathlib.Data.List.TakeWhile

/-!
# The full path of a dentry

`vfs_get_dentry_fullpath` writes a path from its end to its start, up the parents of a dentry,
into the end of a buffer of 128 characters, and moves it to the front of the buffer. The path is
read again by `vfs_get_dentry`, from its start, down the names of the tree. In a tree with proper
names the two meet: the walk down the names of a dentry ends at that dentry.
-/

namespace Mftt.Vfs

open Slices List
open Kernel (nameCopied fullPath)
open OpenFiles (Register)

variable {s : Vfs} {names : List (List Char)} {name : List Char}

section Buffer

/-- The buffer of `vfs_get_dentry_fullpath`, and `p` as an offset into it. -/
structure PathBuffer where
  buf : Nat → Char
  p : Nat

/-- `*(--p) = ch`, which must stay in the buffer. -/
def PathBuffer.push (b : PathBuffer) (ch : Char) : Except Fault PathBuffer :=
  match b.p with
  | 0 => .error .outOfBounds
  | p + 1 => .ok ⟨Function.update b.buf p ch, p⟩

/-- A text, its last character first. -/
def PathBuffer.pushAll (b : PathBuffer) : List Char → Except Fault PathBuffer
  | [] => .ok b
  | ch :: rest => b.pushAll rest >>= fun b => b.push ch

/-- The loop that builds the path. -/
def reverseBuild (s : Vfs) : Nat → Nat → PathBuffer → Except Fault PathBuffer
  | 0, _, _ => .error .unfinished
  | turns + 1, d, b =>
    b.pushAll (nameCopied (s.dentry d).name) >>= fun b =>
      match (s.dentry d).parent with
      | none => .ok b
      | some parent =>
        (if ((s.dentry parent).type = .dir ∨ (s.dentry parent).type = .mounted) ∧
            (s.dentry parent).name.head? ≠ some '/' then b.push '/' else .ok b) >>=
          reverseBuild s turns parent

/-- The loop that moves `count` characters to the front. -/
def copyToHead (buf : Nat → Char) (start p : Nat) : Nat → Except Fault (Nat → Char)
  | 0 => .ok buf
  | count + 1 =>
    if start < FULLPATH_SIZE then
      copyToHead (Function.update buf start (buf p)) (start + 1) (p + 1) count
    else .error .outOfBounds

/-- `vfs_get_dentry_fullpath` with a buffer that holds `fresh`. -/
def vfsGetDentryFullpath (s : Vfs) (turns : Nat) (fresh : Nat → Char) (d : Nat) :
    Except Fault (Nat → Char) :=
  PathBuffer.push ⟨fresh, FULLPATH_SIZE⟩ '\x00' >>= fun b =>
    reverseBuild s turns d b >>= fun b => copyToHead b.buf 0 b.p (FULLPATH_SIZE - b.p)

/-- The string at the start of the buffer. -/
def bufferText (buf : Nat → Char) : List Char :=
  (slice buf 0 FULLPATH_SIZE).takeWhile (· ≠ '\x00')

variable {buf : Nat → Char} {p d turns : Nat}

theorem push_all_append (b : PathBuffer) (above below : List Char) :
    b.pushAll (above ++ below) = b.pushAll below >>= fun b => b.pushAll above := by
  induction above with
  | nil =>
    rw [nil_append]
    cases b.pushAll below with
    | error fault => rfl
    | ok b => rfl
  | cons ch rest ih =>
    rw [cons_append, PathBuffer.pushAll, ih]
    cases b.pushAll below with
    | error fault => rfl
    | ok b => rfl

/-- A text goes in front of what is there, if it fits. -/
theorem push_all_eq (text : List Char) :
    PathBuffer.pushAll ⟨buf, p⟩ text =
      if text.length ≤ p then .ok ⟨overwrite buf (p - text.length) text, p - text.length⟩
      else .error .outOfBounds := by
  induction text with
  | nil => simp [PathBuffer.pushAll]
  | cons ch rest ih =>
    rw [PathBuffer.pushAll, ih, length_cons]
    by_cases fits : rest.length ≤ p
    · rw [if_pos fits]
      cases left : p - rest.length with
      | zero =>
        rw [if_neg (by omega)]
        rfl
      | succ room =>
        have here : p - (rest.length + 1) = room := by omega
        have joined : overwrite (overwrite buf (room + 1) rest) room [ch] =
            overwrite buf room (ch :: rest) := overwrite_prepend [ch] rest
        rw [if_pos (by omega), here, ← joined, ← update_eq_overwrite]
        rfl
    · rw [if_neg fits, if_neg (by omega)]
      rfl

variable {path : List Char}

/-- The loop puts the whole path in front of what is there. -/
theorem reverse_build_eq (built : fullPath s turns d = .ok path) (b : PathBuffer) :
    reverseBuild s turns d b = b.pushAll path := by
  induction turns generalizing d path b with
  | zero => cases built
  | succ turns ih =>
    rw [fullPath] at built
    rw [reverseBuild]
    cases up : (s.dentry d).parent with
    | none =>
      rw [up] at built
      cases built
      cases b.pushAll (nameCopied (s.dentry d).name) with
      | error fault => rfl
      | ok b => rfl
    | some parent =>
      rw [up] at built
      obtain ⟨above, whole, given⟩ := bind_eq_ok.mp built
      cases given
      rw [push_all_append]
      congr 1
      funext b
      rw [push_all_append]
      dsimp only
      split
      · show b.push '/' >>= _ = b.push '/' >>= _
        congr 1
        funext b
        exact ih whole b
      · exact ih whole b

/-- The path is moved to the front. -/
theorem copy_to_head_eq {start count : Nat} (ordered : start ≤ p)
    (fits : p + count ≤ FULLPATH_SIZE) :
    copyToHead buf start p count = .ok (overwrite buf start (slice buf p count)) := by
  induction count generalizing buf start p with
  | zero => simp [copyToHead]
  | succ count ih =>
    have kept : slice (Function.update buf start (buf p)) (p + 1) count = slice buf (p + 1) count :=
      slice_eq_iff.mpr fun k _ => Function.update_of_ne (by omega) _ _
    have split : slice buf p (count + 1) = [buf p] ++ slice buf (p + 1) count := by
      rw [Nat.add_comm count 1, slice_add]
      rfl
    rw [copyToHead, if_pos (by omega), ih (by omega) (by omega), kept, split,
      ← overwrite_append, update_eq_overwrite]
    rfl

/-- What the buffer holds after a path was written at its end and moved to its front. -/
def written (fresh : Nat → Char) (path : List Char) : Nat → Char :=
  overwrite (overwrite fresh (FULLPATH_SIZE - (path.length + 1)) (path ++ ['\x00'])) 0
    (path ++ ['\x00'])

/-- `vfs_get_dentry_fullpath` writes the path that `fullPath` gives, if it fits. -/
theorem fullpath_eq (built : fullPath s turns d = .ok path) (fresh : Nat → Char) :
    vfsGetDentryFullpath s turns fresh d =
      if path.length < FULLPATH_SIZE then .ok (written fresh path) else .error .outOfBounds := by
  have ends : PathBuffer.push ⟨fresh, FULLPATH_SIZE⟩ '\x00' =
      PathBuffer.pushAll ⟨fresh, FULLPATH_SIZE⟩ ['\x00'] := rfl
  have together : vfsGetDentryFullpath s turns fresh d =
      PathBuffer.pushAll ⟨fresh, FULLPATH_SIZE⟩ (path ++ ['\x00']) >>= fun b =>
        copyToHead b.buf 0 b.p (FULLPATH_SIZE - b.p) := by
    rw [vfsGetDentryFullpath, ends, push_all_append]
    cases PathBuffer.pushAll ⟨fresh, FULLPATH_SIZE⟩ ['\x00'] with
    | error fault => rfl
    | ok b =>
      rw [bind_ok, bind_ok, reverse_build_eq built]
  rw [together, push_all_eq, length_append, length_singleton]
  by_cases fits : path.length < FULLPATH_SIZE
  · have count : FULLPATH_SIZE - (FULLPATH_SIZE - (path.length + 1)) =
        (path ++ ['\x00']).length := by
      rw [length_append, length_singleton]
      omega
    rw [if_pos fits, if_pos (by omega), bind_ok]
    dsimp only
    rw [copy_to_head_eq (by omega) (by omega), count, slice_overwrite, written]
  · rw [if_neg fits, if_neg (by omega)]
    rfl

theorem written_outside (fresh : Nat → Char) (fits : path.length < FULLPATH_SIZE) {k : Nat}
    (outside : FULLPATH_SIZE ≤ k) : written fresh path k = fresh k := by
  have length : (path ++ ['\x00']).length = path.length + 1 := by simp
  rw [written, overwrite_outside (.inr (by omega)), overwrite_outside (.inr (by omega))]

/-- The string at the front is the path. -/
theorem text_written (fresh : Nat → Char) (fits : path.length < FULLPATH_SIZE)
    (noNul : '\x00' ∉ path) : bufferText (written fresh path) = path := by
  obtain ⟨behind, size⟩ : ∃ behind, FULLPATH_SIZE = (path ++ ['\x00']).length + behind :=
    ⟨FULLPATH_SIZE - (path.length + 1), by
      rw [length_append, length_singleton]
      omega⟩
  rw [bufferText, size, slice_add, written, slice_overwrite, append_assoc,
    takeWhile_append_of_pos]
  · simp
  · intro ch member
    simpa using fun same : ch = '\x00' => noNul (same ▸ member)

end Buffer

section Tree

/-- A name that a dentry other than the root may have. -/
structure ProperName (name : List Char) : Prop where
  named : Named name
  short : name.length < D_NAME_LEN
  noSlash : '/' ∉ name
  noNul : '\x00' ∉ name

/-- A dentry and the names that lead to it from the root. -/
inductive Under (s : Vfs) : List (List Char) → Nat → Prop
  | root : Under s [] ROOT
  | child {names : List (List Char)} {d c : Nat} : Under s names d → c ∈ (s.dentry d).subdirs →
      Under s (names ++ [(s.dentry c).name]) c

/-- A tree of dentries with proper names, whether its directories have been read or not. -/
structure ProperTree (s : Vfs) : Prop where
  root_lt : ROOT < s.dentries
  root_parent : (s.dentry ROOT).parent = none
  root_name : (s.dentry ROOT).name = ['/']
  child_lt : ∀ names d, s.Under names d → ∀ c ∈ (s.dentry d).subdirs, c < s.dentries
  child_parent : ∀ names d, s.Under names d → ∀ c ∈ (s.dentry d).subdirs,
    (s.dentry c).parent = some d
  proper_name : ∀ names d, s.Under names d → ∀ c ∈ (s.dentry d).subdirs,
    ProperName (s.dentry c).name
  directory : ∀ names d, s.Under names d → (s.dentry d).subdirs ≠ [] →
    (s.dentry d).type = .dir ∨ (s.dentry d).type = .mounted
  unique : ∀ names d, s.Under names d → ∀ c ∈ (s.dentry d).subdirs,
    ∀ c' ∈ (s.dentry d).subdirs, (s.dentry c).name = (s.dentry c').name → c = c'

/-- The absolute path of the names from the root. -/
def absolutePath (names : List (List Char)) : List Char :=
  if names = [] then ['/'] else names.flatMap fun name => '/' :: name

variable {d : Nat}

section

variable (tree : s.ProperTree) (under : s.Under names d)
include tree under

theorem ProperTree.lt : d < s.dentries := by
  cases under with
  | root => exact tree.root_lt
  | child above member => exact tree.child_lt _ _ above _ member

theorem ProperTree.names_proper : ∀ name ∈ names, ProperName name := by
  induction under with
  | root => simp
  | child above member ih =>
    intro name among
    rcases mem_append.mp among with earlier | last
    · exact ih name earlier
    · rw [mem_singleton.mp last]
      exact tree.proper_name _ _ above _ member

theorem ProperTree.head_slash : (s.dentry d).name.head? = some '/' ↔ d = ROOT := by
  cases under with
  | root => simp [tree.root_name]
  | child above member =>
    have proper := tree.proper_name _ _ above _ member
    constructor
    · intro slash
      exact absurd (mem_of_mem_head? slash) proper.noSlash
    · rintro rfl
      have orphan := tree.child_parent _ _ above _ member
      rw [tree.root_parent] at orphan
      cases orphan

end

theorem name_copied_of_proper (proper : ProperName name) :
    nameCopied name = name := if_neg proper.named.1

theorem ProperTree.not_child_root (tree : s.ProperTree) (under : s.Under names d) :
    ROOT ∉ (s.dentry d).subdirs := by
  intro member
  have orphan := tree.child_parent _ _ under _ member
  rw [tree.root_parent] at orphan
  cases orphan

theorem ProperTree.names_unique (tree : s.ProperTree) {names' : List (List Char)}
    (under : s.Under names d) (under' : s.Under names' d) : names = names' := by
  induction under generalizing names' with
  | root =>
    cases under' with
    | root => rfl
    | child above member => exact absurd member (tree.not_child_root above)
  | child above member ih =>
    cases under' with
    | root => exact absurd member (tree.not_child_root above)
    | child above' member' =>
      have parent := tree.child_parent _ _ above _ member
      rw [tree.child_parent _ _ above' _ member'] at parent
      cases parent
      rw [ih above']

theorem Under.root_of_nil (under : s.Under names d) (none : names = []) : d = ROOT := by
  cases under with
  | root => rfl
  | child above member => simp at none

/-- Every beginning of the names leads to a dentry. -/
theorem Under.take (under : s.Under names d) (count : Nat) :
    ∃ a, s.Under (names.take count) a := by
  induction under with
  | root => exact ⟨ROOT, by simpa using Under.root⟩
  | @child names d c above member ih =>
    by_cases less : count ≤ names.length
    · rw [take_append_of_le_length less]
      exact ih
    · rw [take_of_length_le (by simp; omega)]
      exact ⟨c, above.child member⟩

/-- A dentry is not deeper than there are dentries: its ancestors are all different. -/
theorem ProperTree.depth_lt (tree : s.ProperTree) (under : s.Under names d) :
    names.length < s.dentries := by
  choose ancestor leads using fun count : Fin (names.length + 1) => under.take count
  have injective : Function.Injective fun count =>
      (⟨ancestor count, tree.lt (leads count)⟩ : Fin s.dentries) := by
    intro i j same
    have dentry : ancestor i = ancestor j := congrArg Fin.val same
    have lists := tree.names_unique (leads i) (dentry ▸ leads j)
    have lengths := congrArg List.length lists
    rw [length_take, length_take] at lengths
    exact Fin.ext (by omega)
  have counted := Fintype.card_le_of_injective _ injective
  rw [Fintype.card_fin, Fintype.card_fin] at counted
  exact counted

theorem absolute_path_append :
    absolutePath (names ++ [name]) =
      (if names = [] then [] else absolutePath names) ++ '/' :: name := by
  by_cases none : names = []
  · simp [absolutePath, none]
  · simp [absolutePath, none]

/-- The characters that are put together are those of the absolute path. -/
theorem ProperTree.full_path_eq (tree : s.ProperTree) (under : s.Under names d) {turns : Nat}
    (enough : names.length < turns) : fullPath s turns d = .ok (absolutePath names) := by
  induction under generalizing turns with
  | root =>
    obtain ⟨turns, rfl⟩ := Nat.exists_eq_add_of_lt enough
    rw [fullPath, tree.root_parent, tree.root_name]
    rfl
  | @child names d c above member ih =>
    rw [length_append, length_singleton] at enough
    obtain ⟨turns, rfl⟩ := Nat.exists_eq_add_of_lt enough
    have directory := tree.directory _ _ above (ne_nil_of_mem member)
    have copied := name_copied_of_proper (tree.proper_name _ _ above _ member)
    rw [fullPath, tree.child_parent _ _ above _ member]
    dsimp only
    rw [ih (by omega), bind_ok, copied, absolute_path_append]
    by_cases root : d = ROOT
    · subst root
      cases tree.names_unique above .root
      rw [if_neg (by simp [tree.root_name])]
      rfl
    · have deeper : names ≠ [] := fun none => root (above.root_of_nil none)
      rw [if_pos ⟨directory, fun slash => root ((tree.head_slash above).mp slash)⟩, if_neg deeper,
        append_assoc, singleton_append]

theorem absolute_path_eq (some : names ≠ []) :
    absolutePath names = '/' :: ['/'].intercalate names := by
  rw [absolutePath, if_neg some]
  induction names with
  | nil => exact absurd rfl some
  | cons name rest ih =>
    cases rest with
    | nil => simp
    | cons next rest =>
      rw [flatMap_cons, ih (by simp)]
      simp

theorem parts_absolute_path (some : names ≠ []) (noSlash : ∀ name ∈ names, '/' ∉ name) :
    parts (absolutePath names) = names := by
  rw [absolute_path_eq some]
  exact splitOn_intercalate '/' noSlash some

theorem walked_append {last : List Char} (nonempty : ∀ name ∈ names, name ≠ [])
    (lastSome : last ≠ []) : walked (names ++ [last]) = names := by
  induction names with
  | nil => rfl
  | cons name rest ih =>
    have later := ih fun c member => nonempty c (mem_cons_of_mem _ member)
    cases rest with
    | nil => simp [walked, lastSome]
    | cons next rest =>
      have nextSome : next ≠ [] := nonempty next (by simp)
      rw [cons_append] at later
      rw [cons_append, cons_append, walked, if_neg nextSome, later]

theorem ProperTree.child_found (tree : s.ProperTree) (under : s.Under names d) {c : Nat}
    (member : c ∈ (s.dentry d).subdirs) : s.child d (s.dentry c).name = some c := by
  cases found : s.child d (s.dentry c).name with
  | none =>
    have absent := List.find?_eq_none.mp found c member
    exact absurd (decide_eq_true rfl) absent
  | some c' =>
    rw [tree.unique _ _ under c' (child_mem found) c member (child_name found)]

theorem ProperTree.search_found (tree : s.ProperTree) (listing : Listing)
    (under : s.Under names d) {c : Nat} (member : c ∈ (s.dentry d).subdirs) :
    search listing s d (s.dentry c).name = .ok (some c, s) := by
  rw [search, tree.child_found under member]

theorem descend_append (listing : Listing) (rest : List (List Char)) :
    descend listing s d (names ++ rest) =
      descend listing s d names >>= fun (found, s) =>
        match found with
        | none => .ok (none, s)
        | some par => descend listing s par rest := by
  induction names generalizing s d with
  | nil => rfl
  | cons name later ih =>
    rw [cons_append, descend, descend]
    cases resolve listing s d name with
    | error fault => rfl
    | ok reached =>
      obtain ⟨found, s⟩ := reached
      cases found with
      | none => rfl
      | some par => exact ih

/-- The walk down the names of a dentry ends at the dentry and reads no directory. -/
theorem ProperTree.descend_found (tree : s.ProperTree) (listing : Listing)
    (under : s.Under names d) : descend listing s ROOT names = .ok (some d, s) := by
  induction under with
  | root => rfl
  | child above member ih =>
    have named := (tree.proper_name _ _ above _ member).named
    rw [descend_append, ih, bind_ok]
    dsimp only
    rw [descend, resolve, if_neg named.2.2, if_neg (by simp [named.1, named.2.1]),
      tree.search_found listing above member]
    rfl

/-- An absolute path is resolved to the dentry that its names lead to. -/
theorem ProperTree.get_dentry_found (tree : s.ProperTree) (listing : Listing)
    (under : s.Under names d) (cwd : Option Nat) (stale : List Char) :
    vfsGetDentry listing s (absolutePath names) cwd stale = .ok (some d, s) := by
  have proper := tree.names_proper under
  cases under with
  | root => rfl
  | @child names p d above member =>
    have named := (tree.proper_name _ _ above _ member).named
    have nonempty : names ++ [(s.dentry d).name] ≠ [] := by simp
    have split := parts_absolute_path nonempty fun name among => (proper name among).noSlash
    have resolved : walked (parts (absolutePath (names ++ [(s.dentry d).name]))) = names := by
      rw [split]
      exact walked_append (fun name among => (proper name (by simp [among])).named.1) named.1
    have last : lastName (parts (absolutePath (names ++ [(s.dentry d).name]))) =
        (s.dentry d).name := by
      rw [split, lastName]
      simp
    have start : origin (absolutePath (names ++ [(s.dentry d).name])) cwd = ROOT := by
      rw [absolute_path_eq nonempty]
      rfl
    have someName : relative (absolutePath (names ++ [(s.dentry d).name])) ≠ [] := by
      intro none
      have only := parts_of_nil none
      rw [split] at only
      have among : (s.dentry d).name ∈ ([[]] : List (List Char)) := by simp [← only]
      exact named.1 (by simpa using among)
    rw [vfsGetDentry, get_parent_dentry_eq cwd _ someName, resolved, last, start,
      tree.descend_found listing above]
    · show (if (s.dentry d).name = ['.', '.'] then _ else if (s.dentry d).name = ['.'] then _
        else search listing s p (s.dentry d).name) = _
      rw [if_neg named.2.2, if_neg named.2.1, tree.search_found listing above member]
    · rw [split]
      exact fun name among => (proper name among).short

theorem ProperTree.no_nul (tree : s.ProperTree) (under : s.Under names d) :
    '\x00' ∉ absolutePath names := by
  have proper := tree.names_proper under
  rw [absolutePath]
  split
  · decide
  · simp only [mem_flatMap, mem_cons, not_exists, not_and, not_or]
    exact fun name among => ⟨by decide, (proper name among).noNul⟩

end Tree

section RoundTrip

variable {d : Nat}

/-- What `sys_getcwd` copies to the process. -/
theorem ProperTree.cwd_text (tree : s.ProperTree) (under : s.Under names d)
    (short : (absolutePath names).length < FULLPATH_SIZE) {k : Kernel} (holds : k.vfs = s)
    (here : k.cwd = some d) : k.cwdText = .ok (absolutePath names) := by
  have noNul := tree.no_nul under
  rw [Kernel.cwdText, here, holds]
  dsimp only
  rw [tree.full_path_eq under (tree.depth_lt under), bind_ok, if_pos short,
    takeWhile_eq_self_iff.mpr]
  intro ch member
  simpa using fun same : ch = '\x00' => noNul (same ▸ member)

/-- `sys_chdir` to the path of the working directory. -/
theorem ProperTree.chdir_eq (tree : s.ProperTree) (under : s.Under names d) {k k' : Kernel}
    (holds : k.vfs = s) (here : k.cwd = some d) (env : Environment) {a0 : Register} {copy : Nat}
    (given : k.ustrcpyOut env a0 = .ok (some (copy, absolutePath names), k')) :
    k.sysChdir env a0 = k'.kfree copy >>= fun freed => .ok (0, { freed with cwd := k.cwd }) := by
  obtain ⟨⟨text, blocks⟩, -, copied⟩ := bind_eq_ok.mp given
  have unchanged : k' = { k with blocks := blocks } :=
    (Prod.mk.inj (Except.ok.inj copied)).2.symm
  have found : k'.lookup env (some (copy, absolutePath names)) = .ok (some d, k') := by
    subst unchanged
    have none : Kernel.readBetween s s = [] := by simp [Kernel.readBetween]
    rw [Kernel.lookup, Kernel.vfsGetDentry, Kernel.onTree]
    simp only [holds, tree.get_dentry_found env.listing under, bind_ok, none,
      Kernel.readDirectories]
  rw [Kernel.sysChdir, given, bind_ok]
  dsimp only
  rw [found, here]
  rfl

/-- The full path of a dentry is read back as the dentry, in every working directory. It is
written inside its buffer, and `sys_chdir` to what `sys_getcwd` gives changes nothing. -/
theorem full_path_round_trip (tree : s.ProperTree) (under : s.Under names d)
    (short : (absolutePath names).length < FULLPATH_SIZE) (fresh : Nat → Char) :
    ∃ buf, vfsGetDentryFullpath s s.dentries fresh d = .ok buf ∧
      bufferText buf = absolutePath names ∧
      (∀ k, FULLPATH_SIZE ≤ k → buf k = fresh k) ∧
      (∀ listing cwd stale, vfsGetDentry listing s (bufferText buf) cwd stale = .ok (some d, s)) ∧
      ∀ k : Kernel, k.vfs = s → k.cwd = some d →
        k.cwdText = .ok (bufferText buf) ∧
        ∀ (env : Environment) (a0 : Register) (copy : Nat) (k' : Kernel),
          k.ustrcpyOut env a0 = .ok (some (copy, bufferText buf), k') →
            k.sysChdir env a0 =
              k'.kfree copy >>= fun freed => .ok (0, { freed with cwd := k.cwd }) := by
  have writes : vfsGetDentryFullpath s s.dentries fresh d =
      .ok (written fresh (absolutePath names)) := by
    rw [fullpath_eq (tree.full_path_eq under (tree.depth_lt under)), if_pos short]
  have text := text_written fresh short (tree.no_nul under)
  refine ⟨_, writes, text, fun k => written_outside fresh short, ?_, ?_⟩
  · intro listing cwd stale
    rw [text]
    exact tree.get_dentry_found listing under cwd stale
  · intro k holds here
    rw [text]
    refine ⟨tree.cwd_text under short holds here, ?_⟩
    intro env a0 copy k' given
    exact tree.chdir_eq under holds here env given

/-- The tree after `init_vfs`, with a disk in `/dev`. -/
def diskTree : Vfs :=
  init.addDentry 2 { name := ['v', 'd', 'a'], inode := some 3 }

theorem disk_tree_proper : diskTree.ProperTree := by
  have inside : ∀ d < 4, ∀ c ∈ (diskTree.dentry d).subdirs, c < 4 := by decide
  have known {names : List (List Char)} {d : Nat} (under : diskTree.Under names d) : d < 4 := by
    induction under with
    | root => decide
    | child above member ih => exact inside _ ih _ member
  have names : ∀ d < 4, ∀ c ∈ (diskTree.dentry d).subdirs,
      Named (diskTree.dentry c).name ∧ (diskTree.dentry c).name.length < D_NAME_LEN ∧
        '/' ∉ (diskTree.dentry c).name ∧ '\x00' ∉ (diskTree.dentry c).name := by decide
  constructor
  case root_lt => decide
  case root_parent => rfl
  case root_name => rfl
  case child_lt =>
    intro _ d under
    exact inside d (known under)
  case child_parent =>
    intro _ d under
    exact (by decide : ∀ d < 4, ∀ c ∈ (diskTree.dentry d).subdirs,
      (diskTree.dentry c).parent = some d) d (known under)
  case proper_name =>
    intro _ d under c member
    obtain ⟨named, short, noSlash, noNul⟩ := names d (known under) c member
    exact ⟨named, short, noSlash, noNul⟩
  case directory =>
    intro _ d under
    exact (by decide : ∀ d < 4, (diskTree.dentry d).subdirs ≠ [] →
      (diskTree.dentry d).type = .dir ∨ (diskTree.dentry d).type = .mounted) d (known under)
  case unique =>
    intro _ d under
    exact (by decide : ∀ d < 4, ∀ c ∈ (diskTree.dentry d).subdirs,
      ∀ c' ∈ (diskTree.dentry d).subdirs, (diskTree.dentry c).name = (diskTree.dentry c').name → c = c') d (known under)

/-- `/dev/vda` is read back as the dentry of the disk. -/
theorem dev_round_trip :
    ∃ buf, vfsGetDentryFullpath diskTree 4 (fun _ => 'x') 3 = .ok buf ∧
      bufferText buf = ['/', 'd', 'e', 'v', '/', 'v', 'd', 'a'] ∧
      ∀ listing cwd stale,
        vfsGetDentry listing diskTree (bufferText buf) cwd stale = .ok (some 3, diskTree) := by
  have under : diskTree.Under [['d', 'e', 'v'], ['v', 'd', 'a']] 3 :=
    (Under.root.child (c := 2) (by decide)).child (c := 3) (by decide)
  obtain ⟨buf, writes, text, -, reads, -⟩ :=
    full_path_round_trip disk_tree_proper under (by decide) fun _ => 'x'
  exact ⟨buf, writes, text, reads⟩

end RoundTrip

end Mftt.Vfs
