import Mftt.Dentries
import Mathlib.Data.List.Nodup

/-!
# Names in the dentry tree

Entries come into the tree from `vfs_mkdir`, from `vfs_link_inode` and from reading a directory,
and a volume is put over a dentry by `vfs_mount`. The parents and the single reading of every
directory are kept by all of them. That the names on one list differ is kept by reading a
directory if the names in memory and the names on disk, which are still to be read, differ
together; `vfs_mkdir` looks only at the names in memory and `vfs_link_inode` at none.
-/

namespace Mftt.Vfs

open Function

/-- The names on the list of a dentry. -/
def names (s : Vfs) (d : Nat) : List (List Char) :=
  (s.dentry d).subdirs.map fun c => (s.dentry c).name

/-- The names that reading an inode as a directory brings. -/
def onDisk (listing : Listing) (inode : Inode) : List (List Char) :=
  match inode.op, inode.type, listing inode.sb inode.startClus with
  | some .fatfs, .dir, .ok entries => entries.map FatEntry.dName
  | _, _, _ => []

/-- The names that are still to be read for a dentry. -/
def pending (listing : Listing) (s : Vfs) (d : Nat) : List (List Char) :=
  match s.dirInode d with
  | none => []
  | some dir => if (s.dentry d).loaded then [] else onDisk listing (s.inode dir)

/-- The lists, the parents and the record of what was read fit together. -/
structure Shaped (s : Vfs) : Prop where
  root_lt : ROOT < s.dentries
  listed : ∀ d < s.dentries, ∀ c ∈ (s.dentry d).subdirs,
    c < s.dentries ∧ (s.dentry c).parent = some d
  parents : ∀ d < s.dentries, ∀ up ∈ (s.dentry d).parent, up < s.dentries
  inodes : ∀ d < s.dentries, ∀ i ∈ s.dirInode d, i < s.inodes
  loads : s.loads.Nodup
  loaded : ∀ d ∈ s.loads, d < s.dentries ∧ (s.dentry d).loaded = true

/-- The names on a list differ from each other and from further ones. -/
def ClearOf (s : Vfs) (rest : Nat → List (List Char)) : Prop :=
  ∀ d < s.dentries, (s.names d ++ rest d).Nodup

/-- The names on a list differ, and still do when the directory has been read. -/
def Clear (listing : Listing) (s : Vfs) : Prop := s.ClearOf (pending listing s)

/-- Every directory on disk has names that differ when they are cut to fit. -/
def Distinct (listing : Listing) : Prop := ∀ inode, (onDisk listing inode).Nodup

variable {listing : Listing} {s : Vfs} {p : Nat}

variable {x mp : Nat} {entry : Dentry} {cwd : Option Nat} {path : List Char}

section Add

/-- Nothing but the list of the parent changes in the dentries there were. -/
theorem add_dentry_field {α : Type} (field : Dentry → α)
    (other : ∀ d list, field { d with subdirs := list } = field d) (old : x < s.dentries) :
    field ((s.addDentry p entry).dentry x) = field (s.dentry x) := by
  show field (update (update s.dentry s.dentries _) p _ x) = _
  by_cases parent : x = p
  · subst parent
    rw [update_self]
    exact other _ _
  · rw [update_of_ne parent, update_of_ne (Nat.ne_of_lt old)]

theorem add_dentry_new (member : p < s.dentries) :
    (s.addDentry p entry).dentry s.dentries = { entry with parent := some p } := by
  show update (update s.dentry s.dentries _) p _ s.dentries = _
  rw [update_of_ne (Nat.ne_of_gt member), update_self]

theorem add_dentry_subdirs (old : x < s.dentries) :
    ((s.addDentry p entry).dentry x).subdirs =
      if x = p then s.dentries :: (s.dentry x).subdirs else (s.dentry x).subdirs := by
  show (update (update s.dentry s.dentries _) p _ x).subdirs = _
  by_cases parent : x = p
  · subst parent
    rw [update_self, if_pos rfl]
  · rw [update_of_ne parent, update_of_ne (Nat.ne_of_lt old), if_neg parent]

theorem add_dentry_dir_inode (old : x < s.dentries) :
    (s.addDentry p entry).dirInode x = s.dirInode x :=
  add_dentry_field (fun d => d.mount.or d.inode) (fun _ _ => rfl) old

section

variable (shaped : s.Shaped) (member : p < s.dentries)
include shaped member

/-- A new dentry without entries of its own is put below a directory. -/
theorem Shaped.add_dentry (leaf : entry.subdirs = [])
    (inode : ∀ i ∈ entry.mount.or entry.inode, i < s.inodes) : (s.addDentry p entry).Shaped where
  root_lt := Nat.lt_succ_of_lt shaped.root_lt
  listed := by
    intro d small c listed
    rcases Nat.lt_succ_iff_lt_or_eq.mp small with old | rfl
    · rw [add_dentry_subdirs old] at listed
      have parents {x : Nat} (list : x ∈ (s.dentry d).subdirs) :
          x < (s.addDentry p entry).dentries ∧
            ((s.addDentry p entry).dentry x).parent = some d := by
        obtain ⟨less, parent⟩ := shaped.listed d old x list
        exact ⟨Nat.lt_succ_of_lt less, by
          rw [add_dentry_field Dentry.parent (fun _ _ => rfl) less, parent]⟩
      split at listed
      · rename_i isParent
        rcases List.mem_cons.mp listed with rfl | older
        · exact ⟨Nat.lt_succ_self _, by rw [add_dentry_new member, isParent]⟩
        · exact parents older
      · exact parents listed
    · rw [add_dentry_new member] at listed
      rw [show ({ entry with parent := some p } : Dentry).subdirs = [] from leaf] at listed
      cases listed
  parents := by
    intro d small up has
    rcases Nat.lt_succ_iff_lt_or_eq.mp small with old | rfl
    · rw [add_dentry_field Dentry.parent (fun _ _ => rfl) old] at has
      exact Nat.lt_succ_of_lt (shaped.parents d old up has)
    · rw [add_dentry_new member] at has
      cases has
      exact Nat.lt_succ_of_lt member
  inodes := by
    intro d small i has
    rcases Nat.lt_succ_iff_lt_or_eq.mp small with old | rfl
    · rw [add_dentry_dir_inode old] at has
      exact shaped.inodes d old i has
    · rw [dirInode, add_dentry_new member] at has
      exact inode i has
  loads := shaped.loads
  loaded := by
    intro d read
    obtain ⟨less, isLoaded⟩ := shaped.loaded d read
    exact ⟨Nat.lt_succ_of_lt less, by
      rw [add_dentry_field Dentry.loaded (fun _ _ => rfl) less, isLoaded]⟩

theorem Shaped.names_add_dentry (old : x < s.dentries) :
    (s.addDentry p entry).names x = if x = p then entry.name :: s.names x else s.names x := by
  have same : ((s.dentry x).subdirs.map fun c => ((s.addDentry p entry).dentry c).name) =
      s.names x :=
    List.map_congr_left fun c list =>
      add_dentry_field Dentry.name (fun _ _ => rfl) (shaped.listed x old c list).1
  rw [names, add_dentry_subdirs old]
  split
  · rw [List.map_cons, same, add_dentry_new member]
  · exact same

/-- A new entry keeps the names apart if its own name is new. -/
theorem Shaped.clear_add_dentry (leaf : entry.subdirs = []) {rest rest' : Nat → List (List Char)}
    (clear : s.ClearOf rest) (same : ∀ x < s.dentries, x ≠ p → rest' x = rest x)
    (fresh : (entry.name :: s.names p ++ rest' p).Nodup) (own : (rest' s.dentries).Nodup) :
    (s.addDentry p entry).ClearOf rest' := by
  intro d small
  rcases Nat.lt_succ_iff_lt_or_eq.mp small with old | rfl
  · rw [shaped.names_add_dentry member old]
    split
    · rename_i isParent
      rw [isParent]
      exact fresh
    · rename_i other
      rw [same d old other]
      exact clear d old
  · rw [names, add_dentry_new member]
    rw [show ({ entry with parent := some p } : Dentry).subdirs = [] from leaf]
    exact own

end

theorem pending_add_dentry (old : x < s.dentries) :
    pending listing (s.addDentry p entry) x = pending listing s x := by
  rw [pending, add_dentry_dir_inode old, add_dentry_field Dentry.loaded (fun _ _ => rfl) old]
  rfl

theorem pending_new_nodup (distinct : Distinct listing) (s : Vfs) (d : Nat) :
    (pending listing s d).Nodup := by
  rw [pending]
  split
  · exact List.nodup_nil
  · split
    · exact List.nodup_nil
    · exact distinct _

end Add

section Inodes

variable {inode : Inode}

theorem Shaped.alloc_inode (shaped : s.Shaped) (inode : Inode) : (s.allocInode inode).Shaped :=
  { shaped with inodes := fun d small i has => Nat.lt_succ_of_lt (shaped.inodes d small i has) }

theorem Shaped.pending_alloc_inode (shaped : s.Shaped) (small : x < s.dentries) :
    pending listing (s.allocInode inode) x = pending listing s x := by
  rw [pending, pending]
  show (match s.dirInode x with | none => [] | some dir => _) = _
  cases has : s.dirInode x with
  | none => rfl
  | some dir =>
    have old : (s.allocInode inode).inode dir = s.inode dir :=
      update_of_ne (Nat.ne_of_lt (shaped.inodes x small dir has)) _ _
    show (if (s.dentry x).loaded then [] else onDisk listing ((s.allocInode inode).inode dir)) = _
    rw [old]

end Inodes

variable {s' : Vfs} {d : Nat}

/-- A routine keeps the tree in order, and the names apart. -/
structure Kept (listing : Listing) (s s' : Vfs) : Prop where
  shaped : s'.Shaped
  grows : s.dentries ≤ s'.dentries
  clear : Distinct listing → s.Clear listing → s'.Clear listing

theorem Kept.refl (shaped : s.Shaped) : Kept listing s s := ⟨shaped, Nat.le_refl _, fun _ => id⟩

theorem Kept.trans {s'' : Vfs} (first : Kept listing s s') (second : Kept listing s' s'') :
    Kept listing s s'' :=
  ⟨second.shaped, Nat.le_trans first.grows second.grows,
    fun distinct clear => second.clear distinct (first.clear distinct clear)⟩

/-- While a directory is read: what is still to come for its dentry is the rest of the list. -/
def during (listing : Listing) (s : Vfs) (p : Nat) (rest : List (List Char)) (x : Nat) :
    List (List Char) :=
  if x = p then rest else pending listing s x

/-- One entry of a directory. -/
theorem Shaped.looper (shaped : s.Shaped) (member : p < s.dentries) (dir : Nat)
    (entry : FatEntry) : (looper p dir s entry).Shaped :=
  (shaped.alloc_inode _).add_dentry member rfl fun i has => by
    cases has
    exact Nat.lt_succ_self _

theorem Shaped.looper_clear (shaped : s.Shaped) (member : p < s.dentries) (dir : Nat)
    (entry : FatEntry) {rest : List (List Char)} (distinct : Distinct listing)
    (clear : s.ClearOf (during listing s p (entry.dName :: rest))) :
    (Vfs.looper p dir s entry).ClearOf (during listing (Vfs.looper p dir s entry) p rest) := by
  refine (shaped.alloc_inode _).clear_add_dentry member rfl clear ?_ ?_ ?_
  · intro x small other
    rw [during, during, if_neg other, if_neg other]
    exact (pending_add_dentry small).trans (shaped.pending_alloc_inode small)
  · have together := clear p member
    rw [during, if_pos rfl] at together ⊢
    exact (List.perm_middle.nodup_iff.mp together)
  · have other : s.dentries ≠ p := Nat.ne_of_gt member
    rw [during, show (s.allocInode _).dentries = s.dentries from rfl, if_neg other]
    exact pending_new_nodup distinct _ _

/-- All entries of a directory. -/
theorem Shaped.loopers (listing : Listing) (shaped : s.Shaped) (member : p < s.dentries)
    (dir : Nat) (entries : List FatEntry) :
    (entries.foldl (Vfs.looper p dir) s).Shaped ∧
      s.dentries ≤ (entries.foldl (Vfs.looper p dir) s).dentries ∧
      (entries.foldl (Vfs.looper p dir) s).loads = s.loads ∧
      (Distinct listing → s.ClearOf (during listing s p (entries.map FatEntry.dName)) →
        (entries.foldl (Vfs.looper p dir) s).ClearOf
          (during listing (entries.foldl (Vfs.looper p dir) s) p [])) := by
  induction entries generalizing s with
  | nil => exact ⟨shaped, Nat.le_refl _, rfl, fun _ clear => clear⟩
  | cons entry rest ih =>
    obtain ⟨after, grows, loads, clear⟩ :=
      ih (shaped.looper member dir entry) (Nat.lt_succ_of_lt member)
    exact ⟨after, Nat.le_of_succ_le grows, loads, fun distinct before =>
      clear distinct (shaped.looper_clear member dir entry distinct before)⟩

/-- Marking a dentry as read. -/
def markRead (s : Vfs) (p : Nat) : Vfs :=
  { s.modify p fun d => { d with loaded := true } with loads := p :: s.loads }

theorem mark_read_field {α : Type} (field : Dentry → α)
    (other : ∀ d, field { d with loaded := true } = field d) (x : Nat) :
    field ((s.markRead p).dentry x) = field (s.dentry x) := by
  show field (update s.dentry p _ x) = _
  by_cases parent : x = p
  · subst parent
    rw [update_self]
    exact other _
  · rw [update_of_ne parent]

theorem mark_read_loaded :
    ((s.markRead p).dentry x).loaded = if x = p then true else (s.dentry x).loaded := by
  show (update s.dentry p _ x).loaded = _
  by_cases parent : x = p
  · subst parent
    rw [update_self, if_pos rfl]
  · rw [update_of_ne parent, if_neg parent]

theorem mark_read_names (x : Nat) : (s.markRead p).names x = s.names x := by
  rw [names, mark_read_field Dentry.subdirs fun _ => rfl]
  exact List.map_congr_left fun c _ => mark_read_field Dentry.name (fun _ => rfl) c

theorem Shaped.mark_read (shaped : s.Shaped) (member : p < s.dentries) (unread : p ∉ s.loads) :
    (s.markRead p).Shaped where
  root_lt := shaped.root_lt
  listed := by
    intro d small c listed
    rw [mark_read_field Dentry.subdirs fun _ => rfl] at listed
    rw [mark_read_field Dentry.parent fun _ => rfl]
    exact shaped.listed d small c listed
  parents := by
    intro d small up has
    rw [mark_read_field Dentry.parent fun _ => rfl] at has
    exact shaped.parents d small up has
  inodes := by
    intro d small i has
    rw [dirInode, mark_read_field (fun d => d.mount.or d.inode) fun _ => rfl] at has
    exact shaped.inodes d small i has
  loads := List.nodup_cons.mpr ⟨unread, shaped.loads⟩
  loaded := by
    intro d read
    rw [mark_read_loaded]
    rcases List.mem_cons.mp read with rfl | before
    · exact ⟨member, if_pos rfl⟩
    · obtain ⟨small, isLoaded⟩ := shaped.loaded d before
      exact ⟨small, by rw [isLoaded, ite_self]⟩

/-- When everything has been read, nothing is to come. -/
theorem mark_read_clear (clear : s.ClearOf (during listing s p [])) :
    (s.markRead p).Clear listing := by
  intro x small
  have same : pending listing (s.markRead p) x = during listing s p [] x := by
    have inode : (s.markRead p).dirInode x = s.dirInode x :=
      mark_read_field (fun d => d.mount.or d.inode) (fun _ => rfl) x
    rw [pending, during, pending, inode, mark_read_loaded]
    split
    · exact (ite_self _).symm
    · by_cases parent : x = p
      · rw [if_pos parent, if_pos parent]
        rfl
      · rw [if_neg parent, if_neg parent]
        rfl
  rw [mark_read_names, same]
  exact clear x small

/-- Reading the directory of a dentry. -/
theorem Shaped.load_kept (shaped : s.Shaped) (member : d < s.dentries)
    (loads : load listing s d = .ok s') : Kept listing s s' := by
  rw [load] at loads
  cases has : s.dirInode d with
  | none =>
    rw [has] at loads
    cases loads
    exact .refl shaped
  | some dir =>
    rw [has] at loads
    dsimp only at loads
    split at loads
    · rename_i reads
      obtain ⟨_, isDir, loads⟩ := bind_eq_ok.mp loads
      obtain ⟨entries, lists, loads⟩ := bind_eq_ok.mp loads
      cases loads
      have unread : d ∉ s.loads := fun read => by
        rw [(shaped.loaded d read).2] at reads
        cases reads.2
      have toCome : pending listing s d = entries.map FatEntry.dName := by
        rw [pending, has]
        simp only [reads.2, onDisk, reads.1, assert_eq_ok.mp isDir, lists]
        rfl
      obtain ⟨after, grows, record, clear⟩ := shaped.loopers listing member dir entries
      refine ⟨after.mark_read (Nat.lt_of_lt_of_le member grows) (record ▸ unread), grows,
        fun distinct before => mark_read_clear (clear distinct ?_)⟩
      intro x small
      have same : during listing s d (entries.map FatEntry.dName) x = pending listing s x := by
        rw [during]
        split
        · rename_i isParent
          rw [isParent, toCome]
        · rfl
      rw [same]
      exact before x small
    · cases loads
      exact .refl shaped

variable {name : List Char}

section Lookup

variable {found : Option Nat}

/-- A lookup keeps the tree in order and gives a dentry of it. -/
structure Finds (listing : Listing) (s : Vfs) (found : Option Nat) (s' : Vfs) : Prop where
  kept : Kept listing s s'
  valid : ∀ d ∈ found, d < s'.dentries

variable {parent : Parent}

section

variable (shaped : s.Shaped) (member : d < s.dentries)
include shaped member

theorem Shaped.child_lt : ∀ c ∈ s.child d name, c < s.dentries :=
  fun c has => (shaped.listed d member c (List.mem_of_find?_eq_some has)).1

theorem Shaped.search_finds (finds : search listing s d name = .ok (found, s')) :
    Finds listing s found s' := by
  rw [search] at finds
  cases has : s.child d name with
  | some c =>
    rw [has] at finds
    cases finds
    exact ⟨.refl shaped, fun _ same => shaped.child_lt member _ (has ▸ same)⟩
  | none =>
    rw [has] at finds
    obtain ⟨after, loads, finds⟩ := bind_eq_ok.mp finds
    cases finds
    have kept := shaped.load_kept member loads
    exact ⟨kept, kept.shaped.child_lt (Nat.lt_of_lt_of_le member kept.grows)⟩

theorem Shaped.resolve_finds (finds : resolve listing s d name = .ok (found, s')) :
    Finds listing s found s' := by
  rw [resolve] at finds
  split at finds
  · cases finds
    refine ⟨.refl shaped, ?_⟩
    rintro up ⟨⟩
    cases has : (s.dentry d).parent with
    | none => exact shaped.root_lt
    | some above => exact shaped.parents d member above has
  · split at finds
    · cases finds
      refine ⟨.refl shaped, ?_⟩
      rintro same ⟨⟩
      exact member
    · exact shaped.search_finds member finds

end

theorem Finds.after (first : Kept listing s s') {s'' : Vfs} (second : Finds listing s' found s'') :
    Finds listing s found s'' := ⟨first.trans second.kept, second.valid⟩

/-- The loop over the characters of a path. -/
theorem Shaped.walk_finds (shaped : s.Shaped) {par : Nat} (member : par < s.dentries)
    {dname since : List Char} {meet : Bool}
    (walks : walk listing s par dname meet since path = .ok (parent, s')) :
    Finds listing s parent.dentry s' := by
  induction path generalizing s par dname meet since with
  | nil =>
    obtain ⟨_, _, walks⟩ := bind_eq_ok.mp walks
    cases walks
    refine ⟨.refl shaped, ?_⟩
    rintro same ⟨⟩
    exact member
  | cons ch path ih =>
    rw [walk] at walks
    split at walks
    · obtain ⟨_, _, walks⟩ := bind_eq_ok.mp walks
      exact ih shaped member walks
    · split at walks
      · obtain ⟨⟨next, between⟩, resolves, walks⟩ := bind_eq_ok.mp walks
        have step := shaped.resolve_finds member resolves
        cases next with
        | none =>
          cases walks
          exact step
        | some next =>
          exact .after step.kept (ih step.kept.shaped (step.valid next rfl) walks)
      · exact ih shaped member walks

theorem Shaped.origin_lt (shaped : s.Shaped) (path : List Char)
    (valid : ∀ d ∈ cwd, d < s.dentries) :
    origin path cwd < s.dentries := by
  rw [origin]
  split
  · exact shaped.root_lt
  · cases cwd with
    | none => exact shaped.root_lt
    | some d => exact valid d rfl

theorem Shaped.parent_finds (shaped : s.Shaped) (valid : ∀ d ∈ cwd, d < s.dentries)
    (finds : vfsGetParentDentry listing s path cwd = .ok (parent, s')) :
    Finds listing s parent.dentry s' := by
  rw [vfsGetParentDentry] at finds
  split at finds
  · cases finds
    exact ⟨.refl shaped, fun _ none => by cases none⟩
  · exact shaped.walk_finds (shaped.origin_lt path valid) finds

theorem Shaped.dentry_finds (shaped : s.Shaped) {stale : List Char}
    (valid : ∀ d ∈ cwd, d < s.dentries)
    (finds : vfsGetDentry listing s path cwd stale = .ok (found, s')) :
    Finds listing s found s' := by
  obtain ⟨⟨parent, between⟩, gets, finds⟩ := bind_eq_ok.mp finds
  have first := shaped.parent_finds valid gets
  have between' := first.kept.shaped
  dsimp only at finds first
  cases has : parent.dentry with
  | none =>
    rw [has] at finds
    cases finds
    refine ⟨first.kept, fun d isRoot => ?_⟩
    split at isRoot
    · cases isRoot
      exact between'.root_lt
    · cases isRoot
  | some par =>
    rw [has] at finds
    have member := first.valid par has
    dsimp only at finds
    split at finds
    · cases finds
      exact ⟨first.kept, between'.parents par member⟩
    · split at finds
      · cases finds
        refine ⟨first.kept, ?_⟩
        rintro same ⟨⟩
        exact member
      · exact .after first.kept (between'.search_finds member finds)

end Lookup

section Changes

/-- A new entry, whose name is new in memory and on disk. -/
theorem Shaped.clear_add (shaped : s.Shaped) (member : p < s.dentries) (leaf : entry.subdirs = [])
    (distinct : Distinct listing) (clear : s.Clear listing) (unlisted : entry.name ∉ s.names p)
    (unwritten : entry.name ∉ pending listing s p) : (s.addDentry p entry).Clear listing := by
  refine shaped.clear_add_dentry member leaf clear
    (fun x small _ => pending_add_dentry small) ?_ (pending_new_nodup distinct _ _)
  rw [pending_add_dentry member, List.cons_append, List.nodup_cons, List.mem_append]
  exact ⟨fun present => present.elim unlisted unwritten, clear p member⟩

theorem Shaped.count_link (shaped : s.Shaped) (inode : Nat) : (s.countLink inode).Shaped :=
  { shaped with }

theorem pending_count_link (inode x : Nat) :
    pending listing (s.countLink inode) x = pending listing s x := by
  have same (dir : Nat) : onDisk listing ((s.countLink inode).inode dir) =
      onDisk listing (s.inode dir) := by
    by_cases linked : dir = inode
    · subst linked
      rw [show (s.countLink dir).inode dir = _ from update_self _ _ _]
      rfl
    · rw [show (s.countLink inode).inode dir = _ from update_of_ne linked _ _]
  rw [pending, pending, show (s.countLink inode).dirInode x = s.dirInode x from rfl]
  cases s.dirInode x with
  | none => rfl
  | some dir =>
    dsimp only
    rw [same]
    rfl

variable {made : Option Nat} {root : Nat}

/-- `vfs_link_inode` keeps the names apart if its name is new. -/
theorem Shaped.link_kept (shaped : s.Shaped) {inode parent : Nat} (member : parent < s.dentries)
    (known : inode < s.inodes) (links : vfsLinkInode s inode parent name = .ok s') :
    s'.Shaped ∧ (Distinct listing → s.Clear listing → name ∉ s.names parent →
      name ∉ pending listing s parent → s'.Clear listing) := by
  obtain ⟨linked, counts, links⟩ := bind_eq_ok.mp links
  cases links
  have same : linked = s ∨ linked = s.countLink inode := by
    split at counts <;> cases counts
    · exact .inl rfl
    · exact .inr rfl
  rcases same with rfl | rfl
  · refine ⟨shaped.add_dentry member rfl ?_, fun distinct clear unlisted unwritten =>
      shaped.clear_add member rfl distinct clear unlisted unwritten⟩
    rintro i ⟨⟩
    exact known
  · have counted := shaped.count_link inode
    refine ⟨counted.add_dentry member rfl ?_, fun distinct clear unlisted unwritten =>
      counted.clear_add member rfl distinct ?_ unlisted ?_⟩
    · rintro i ⟨⟩
      exact known
    · intro x small
      rw [pending_count_link]
      exact clear x small
    · rw [pending_count_link]
      exact unwritten

theorem not_mem_names (absent : s.child d name = none) : name ∉ s.names d := by
  intro listed
  obtain ⟨c, member, same⟩ := List.mem_map.mp listed
  have := List.find?_eq_none.mp absent c member
  exact this (decide_eq_true same)

theorem Shaped.clear_alloc_inode (shaped : s.Shaped) (inode : Inode) (clear : s.Clear listing) :
    (s.allocInode inode).Clear listing := by
  intro x small
  rw [shaped.pending_alloc_inode small]
  exact clear x small

/-- `vfs_mkdir` in a directory keeps the names apart if its name is not on disk. -/
theorem Shaped.make_dir_kept (shaped : s.Shaped) {parent : Nat} {dname : List Char}
    (member : parent < s.dentries) (makes : s.makeDir parent dname = .ok (made, s')) :
    s'.Shaped ∧ (Distinct listing → s.Clear listing → dname ∉ pending listing s parent →
      s'.Clear listing) := by
  rw [makeDir] at makes
  split at makes
  · cases makes
    exact ⟨shaped, fun _ clear _ => clear⟩
  · rename_i absent
    split at makes
    · cases makes
    · split at makes
      · cases makes
        exact ⟨shaped, fun _ clear _ => clear⟩
      · cases makes
        have made (sb : Option Nat) : (s.vfsAllocInode sb).Shaped := shaped.alloc_inode _
        refine ⟨(made _).add_dentry member rfl ?_, fun distinct clear unwritten =>
          (made _).clear_add member rfl distinct (shaped.clear_alloc_inode _ clear)
            (not_mem_names (Option.not_isSome_iff_eq_none.mp absent)) ?_⟩
        · rintro i ⟨⟩
          exact Nat.lt_succ_self _
        · rw [vfsAllocInode, shaped.pending_alloc_inode member]
          exact unwritten

theorem mount_on_field {α : Type} (field : Dentry → α)
    (other : ∀ d, field { d with type := .mounted, mount := some root } = field d) (x : Nat) :
    field ((s.mountOn mp root).dentry x) = field (s.dentry x) := by
  show field (update s.dentry mp _ x) = _
  by_cases isPoint : x = mp
  · subst isPoint
    rw [update_self]
    exact other _
  · rw [update_of_ne isPoint]

theorem mount_on_names (x : Nat) : (s.mountOn mp root).names x = s.names x := by
  rw [names, mount_on_field Dentry.subdirs fun _ => rfl]
  exact List.map_congr_left fun c _ => mount_on_field Dentry.name (fun _ => rfl) c

theorem mount_on_dir_inode (x : Nat) :
    (s.mountOn mp root).dirInode x = if x = mp then some root else s.dirInode x := by
  show (update s.dentry mp _ x).mount.or (update s.dentry mp _ x).inode = _
  by_cases isPoint : x = mp
  · subst isPoint
    rw [update_self, if_pos rfl]
    rfl
  · rw [update_of_ne isPoint, if_neg isPoint]
    rfl

theorem Shaped.mount_on (shaped : s.Shaped) (mp : Nat) (known : root < s.inodes) :
    (s.mountOn mp root).Shaped where
  root_lt := shaped.root_lt
  listed := by
    intro d small c listed
    rw [mount_on_field Dentry.subdirs fun _ => rfl] at listed
    rw [mount_on_field Dentry.parent fun _ => rfl]
    exact shaped.listed d small c listed
  parents := by
    intro d small up has
    rw [mount_on_field Dentry.parent fun _ => rfl] at has
    exact shaped.parents d small up has
  inodes := by
    intro d small i has
    rw [mount_on_dir_inode] at has
    split at has
    · cases has
      exact known
    · exact shaped.inodes d small i has
  loads := shaped.loads
  loaded := by
    intro d read
    rw [mount_on_field Dentry.loaded fun _ => rfl]
    exact shaped.loaded d read

theorem mount_on_clear (mp root : Nat) (clear : s.Clear listing)
    (apart : (s.dentry mp).loaded = false → (s.names mp ++ onDisk listing (s.inode root)).Nodup) :
    (s.mountOn mp root).Clear listing := by
  intro x small
  rw [mount_on_names, pending, mount_on_dir_inode, mount_on_field Dentry.loaded fun _ => rfl]
  by_cases isPoint : x = mp
  · subst isPoint
    rw [if_pos rfl]
    dsimp only
    cases read : (s.dentry x).loaded with
    | true =>
      have own := clear x small
      rw [if_pos rfl, List.append_nil]
      exact (List.nodup_append.mp own).1
    | false => exact apart read
  · rw [if_neg isPoint]
    exact clear x small

/-- The names at the mount point differ from those in the root directory of the volume. -/
def MountApart (listing : Listing) (s : Vfs) (dev mountpoint : List Char) (cwd : Option Nat)
    (stale stale' : List Char) (rootClus : Except Fault Nat) : Prop :=
  ∀ device s₁ mp s₂ clus, vfsGetDentry listing s dev cwd stale = .ok (device, s₁) →
    vfsGetDentry listing s₁ mountpoint cwd stale' = .ok (some mp, s₂) → rootClus = .ok clus →
    (s₂.dentry mp).loaded = false →
    (s₂.names mp ++ onDisk listing (s₂.volumeRoot clus)).Nodup

/-- A mount keeps the shape of the tree and, where it is apart, its names clear. -/
theorem Shaped.mount_kept (shaped : s.Shaped) {dev mountpoint fstype stale stale' : List Char}
    (valid : ∀ d ∈ cwd, d < s.dentries) {rootClus : Except Fault Nat} {result : Int}
    (mounts : vfsMount listing s dev mountpoint fstype cwd stale stale' rootClus = .ok (result, s'))
    :
    s'.Shaped ∧ (Distinct listing → s.Clear listing →
      MountApart listing s dev mountpoint cwd stale stale' rootClus → s'.Clear listing) := by
  rw [vfsMount] at mounts
  split at mounts
  · cases mounts
    exact ⟨shaped, fun _ clear _ => clear⟩
  · obtain ⟨⟨device, s₁⟩, first, mounts⟩ := bind_eq_ok.mp mounts
    obtain ⟨⟨point, s₂⟩, second, mounts⟩ := bind_eq_ok.mp mounts
    have kept₁ := (shaped.dentry_finds valid first).kept
    have finds₂ := kept₁.shaped.dentry_finds
      (fun d has => Nat.lt_of_lt_of_le (valid d has) kept₁.grows) second
    have kept := kept₁.trans finds₂.kept
    have unchanged (apart : Prop) :
        s₂.Shaped ∧ (Distinct listing → s.Clear listing → apart → s₂.Clear listing) :=
      ⟨kept.shaped, fun distinct clear _ => kept.clear distinct clear⟩
    cases device with
    | none =>
      cases mounts
      exact unchanged _
    | some device =>
      cases point with
      | none =>
        cases mounts
        exact unchanged _
      | some mp =>
        dsimp only at mounts
        split at mounts
        · cases mounts
          exact unchanged _
        · split at mounts
          · cases mounts
          · obtain ⟨clus, reads, mounts⟩ := bind_eq_ok.mp mounts
            cases mounts
            have made := kept.shaped.alloc_inode (s₂.volumeRoot clus)
            have mounted := made.mount_on mp (Nat.lt_succ_self s₂.inodes)
            refine ⟨{ mounted with }, fun distinct clear apart => ?_⟩
            have cleared := kept.shaped.clear_alloc_inode (s₂.volumeRoot clus)
              (kept.clear distinct clear)
            refine mount_on_clear mp s₂.inodes cleared fun unread => ?_
            have root : (s₂.allocInode (s₂.volumeRoot clus)).inode s₂.inodes =
              s₂.volumeRoot clus := update_self _ _ _
            have separate := apart _ _ mp s₂ clus first second reads unread
            rw [root]
            exact separate

/-- The name of a new directory is not among those that are still to be read. -/
def NewOnDisk (listing : Listing) (s : Vfs) (parent : Option Nat) (path stale : List Char) : Prop :=
  ∀ found s', vfsGetParentDentry listing s path parent = .ok (found, s') →
    ∀ par ∈ found.dentry, found.name.getD stale ∉ pending listing s' par

theorem Shaped.mkdir_kept (shaped : s.Shaped) {parent : Option Nat} {stale : List Char}
    (valid : ∀ d ∈ parent, d < s.dentries)
    (makes : vfsMkdir listing s parent path stale = .ok (made, s')) :
    s'.Shaped ∧ (Distinct listing → s.Clear listing → NewOnDisk listing s parent path stale →
      s'.Clear listing) := by
  obtain ⟨⟨found, between⟩, gets, makes⟩ := bind_eq_ok.mp makes
  have finds := shaped.parent_finds valid gets
  dsimp only at makes finds
  split at makes
  · cases makes
    exact ⟨finds.kept.shaped, fun distinct clear _ => finds.kept.clear distinct clear⟩
  · split at makes
    · cases makes
    · rename_i par has
      obtain ⟨after, clear⟩ := finds.kept.shaped.make_dir_kept (finds.valid par has) makes
      exact ⟨after, fun distinct before unwritten =>
        clear distinct (finds.kept.clear distinct before) (unwritten _ _ gets par has)⟩

theorem Shaped.read_dir_kept (shaped : s.Shaped) {file file' : DirFile}
    (valid : file.dentry < s.dentries) {entry : Option Nat}
    (reads : vfsReadDir listing s file = .ok (entry, file', s')) : Kept listing s s' := by
  obtain ⟨after, loads, reads⟩ := bind_eq_ok.mp reads
  have kept := shaped.load_kept valid loads
  dsimp only at reads
  split at reads
  · cases reads
    exact kept
  · cases reads
    exact kept

end Changes

section Runs

/-- A call of a routine that looks at the tree or changes it. `register` is a driver that makes
the inode of its device. -/
inductive VfsEvent where
  | lookup (path : List Char) (cwd : Option Nat) (stale : List Char)
  | lookupParent (path : List Char) (cwd : Option Nat)
  | readDir (file : DirFile)
  | mkdir (parent : Option Nat) (path stale : List Char)
  | register
  | link (inode parent : Nat) (name : List Char)
  | mount (dev mountpoint fstype : List Char) (cwd : Option Nat) (stale stale' : List Char)
      (rootClus : Except Fault Nat)

/-- What a call does to the tree. -/
def perform (listing : Listing) (s : Vfs) : VfsEvent → Except Fault Vfs
  | .lookup path cwd stale => (vfsGetDentry listing s path cwd stale).map Prod.snd
  | .lookupParent path cwd => (vfsGetParentDentry listing s path cwd).map Prod.snd
  | .readDir file => (vfsReadDir listing s file).map fun result => result.2.2
  | .mkdir parent path stale => (vfsMkdir listing s parent path stale).map Prod.snd
  | .register => .ok (s.allocInode { op := some .device })
  | .link inode parent name => vfsLinkInode s inode parent name
  | .mount dev mountpoint fstype cwd stale stale' rootClus =>
    (vfsMount listing s dev mountpoint fstype cwd stale stale' rootClus).map Prod.snd

/-- The dentries and the inode that a call is given exist. -/
def Valid (s : Vfs) : VfsEvent → Prop
  | .lookup _ cwd _ | .lookupParent _ cwd | .mkdir cwd _ _ | .mount _ _ _ cwd _ _ _ =>
    ∀ d ∈ cwd, d < s.dentries
  | .readDir file => file.dentry < s.dentries
  | .register => True
  | .link inode parent _ => inode < s.inodes ∧ parent < s.dentries

/-- A call that brings no name a second time. -/
def Careful (listing : Listing) (s : Vfs) : VfsEvent → Prop
  | .mkdir parent path stale => NewOnDisk listing s parent path stale
  | .link _ parent name => name ∉ s.names parent ∧ name ∉ pending listing s parent
  | .mount dev mountpoint _ cwd stale stale' rootClus =>
    MountApart listing s dev mountpoint cwd stale stale' rootClus
  | _ => True

/-- The trees after `init_vfs` and any number of calls that are allowed. -/
inductive VfsRun (listing : Listing) (allowed : Vfs → VfsEvent → Prop) : Vfs → Prop
  | init : VfsRun listing allowed Vfs.init
  | call {s s' : Vfs} {event : VfsEvent} : VfsRun listing allowed s → s.Valid event →
      allowed s event → perform listing s event = .ok s' → VfsRun listing allowed s'

theorem map_eq_ok {α β : Type} {routine : Except Fault α} {result : α → β} {value : β}
    (returns : routine.map result = .ok value) :
    ∃ given, routine = .ok given ∧ result given = value := by
  cases routine with
  | error fault => cases returns
  | ok given => exact ⟨given, rfl, by cases returns; rfl⟩

/-- One call. -/
theorem Shaped.perform (shaped : s.Shaped) {event : VfsEvent} (valid : s.Valid event)
    (performs : perform listing s event = .ok s') :
    s'.Shaped ∧ (Distinct listing → s.Clear listing → s.Careful listing event →
      s'.Clear listing) := by
  have only (kept : Kept listing s s') : s'.Shaped ∧ (Distinct listing → s.Clear listing →
      s.Careful listing event → s'.Clear listing) :=
    ⟨kept.shaped, fun distinct clear _ => kept.clear distinct clear⟩
  cases event with
  | lookup path cwd stale =>
    obtain ⟨⟨found, after⟩, gets, rfl⟩ := map_eq_ok performs
    exact only (shaped.dentry_finds valid gets).kept
  | lookupParent path cwd =>
    obtain ⟨⟨found, after⟩, gets, rfl⟩ := map_eq_ok performs
    exact only (shaped.parent_finds valid gets).kept
  | readDir file =>
    obtain ⟨⟨entry, file', after⟩, gets, rfl⟩ := map_eq_ok performs
    exact only (shaped.read_dir_kept valid gets)
  | mkdir parent path stale =>
    obtain ⟨⟨made, after⟩, makes, rfl⟩ := map_eq_ok performs
    exact shaped.mkdir_kept valid makes
  | register =>
    cases performs
    exact only ⟨shaped.alloc_inode _, Nat.le_refl _, fun _ => shaped.clear_alloc_inode _⟩
  | link inode parent name =>
    obtain ⟨after, clear⟩ := shaped.link_kept valid.2 valid.1 performs
    exact ⟨after, fun distinct before careful => clear distinct before careful.1 careful.2⟩
  | mount dev mountpoint fstype cwd stale stale' rootClus =>
    obtain ⟨⟨result, after⟩, mounts, rfl⟩ := map_eq_ok performs
    exact shaped.mount_kept valid mounts

theorem init_shaped : init.Shaped where
  root_lt := by decide
  listed := by decide
  parents := by decide
  inodes := by decide
  loads := List.nodup_nil
  loaded := fun _ none => by cases none

theorem init_clear : init.Clear listing := by
  intro d small
  match d, small with
  | 0, _ => exact (by decide : (init.names 0 ++ []).Nodup)
  | 1, _ => exact List.nodup_nil
  | 2, _ => exact List.nodup_nil

variable {allowed : Vfs → VfsEvent → Prop}

theorem VfsRun.shaped (run : VfsRun listing allowed s) : s.Shaped := by
  induction run with
  | init => exact init_shaped
  | call _ valid _ performs ih =>
    exact (ih.perform valid performs).1

theorem VfsRun.clear (distinct : Distinct listing) (run : VfsRun listing (Careful listing) s) :
    s.Clear listing := by
  induction run with
  | init => exact init_clear
  | call run valid careful performs ih =>
    exact (run.shaped.perform valid performs).2 distinct ih careful

/-- In every run, each entry on the list of a dentry has that dentry as its parent and each
directory is read at most once. If the directories on disk have names that differ when they are
cut to fit, and no call brings a name a second time, the names on every list differ. -/
theorem sibling_names (listing : Listing) :
    (∀ s, VfsRun listing (fun _ _ => True) s → s.loads.Nodup ∧
      ∀ d < s.dentries, ∀ c ∈ (s.dentry d).subdirs, (s.dentry c).parent = some d) ∧
    (Distinct listing → ∀ s, VfsRun listing (Careful listing) s →
      ∀ d < s.dentries, (s.names d).Nodup) := by
  refine ⟨fun s run => ⟨run.shaped.loads, fun d small c listed =>
    (run.shaped.listed d small c listed).2⟩, fun distinct s run d small => ?_⟩
  exact (List.nodup_append.mp (run.clear distinct d small)).1

/-- A call in a given state. -/
theorem VfsRun.next (run : VfsRun listing allowed s) (event : VfsEvent) (valid : s.Valid event)
    (may : allowed s event) (performs : Vfs.perform listing s event = .ok s') :
    VfsRun listing allowed s' :=
  .call run valid may performs

/-- A volume whose root directory, at cluster 2, has one entry. -/
def oneEntry : Listing := fun _ clus =>
  .ok (if clus = 2 then [{ longName := ['a'], isDir := true, clus := 5 }] else [])

theorem one_entry_distinct : Distinct oneEntry := by
  intro inode
  rw [onDisk]
  split
  · rename_i entries _ _ lists
    simp only [oneEntry, Except.ok.injEq] at lists
    subst lists
    split <;> simp
  · exact List.nodup_nil

/-- The device of the disk. -/
def devVda : List Char := ['/', 'd', 'e', 'v', '/', 'v', 'd', 'a']

/-- A name is looked for in a volume that was mounted at the root: then the root has its names
in memory and those of the volume. -/
theorem volume_read :
    ∃ s, VfsRun oneEntry (Careful oneEntry) s ∧ s.names ROOT =
      [['a'], ['d', 'e', 'v'], ['s', 'y', 's']] ∧ (s.names ROOT).Nodup := by
  have run : ∃ s, VfsRun oneEntry (Careful oneEntry) s ∧ ROOT < s.dentries ∧
      s.names ROOT = [['a'], ['d', 'e', 'v'], ['s', 'y', 's']] := by
    refine ⟨_, .next (.next (.next (.next .init .register trivial trivial rfl)
      (.link 4 2 ['v', 'd', 'a']) ⟨by decide, by decide⟩ ⟨by decide, by decide⟩ rfl)
      (.mount devVda ['/'] ['f', 'a', 't', '3', '2'] none [] [] (.ok 2))
        (fun _ none => by cases none) ?_ rfl)
      (.lookup ['b'] none []) (fun _ none => by cases none) trivial rfl, by decide, by decide⟩
    intro device s₁ mp s₂ clus first second reads unread
    cases first
    cases second
    cases reads
    decide
  obtain ⟨s, run, member, names⟩ := run
  exact ⟨s, run, names, (sibling_names oneEntry).2 one_entry_distinct s run ROOT member⟩

/-- A directory is made whose name the volume at the root has, before the volume was read; and a
device is linked twice under one name. -/
theorem names_twice :
    (∃ s, VfsRun oneEntry (fun _ _ => True) s ∧
      s.names ROOT = [['a'], ['a'], ['d', 'e', 'v'], ['s', 'y', 's']]) ∧
    ∃ s, VfsRun oneEntry (fun _ _ => True) s ∧ s.names 2 = [['t', 't', 'y'], ['t', 't', 'y']] := by
  refine ⟨⟨_, .next (.next (.next (.next (.next .init .register trivial trivial rfl)
      (.link 4 2 ['v', 'd', 'a']) ⟨by decide, by decide⟩ trivial rfl)
      (.mount devVda ['/'] ['f', 'a', 't', '3', '2'] none [] [] (.ok 2))
        (fun _ none => by cases none) trivial rfl)
      (.mkdir none ['a'] []) (fun _ none => by cases none) trivial rfl)
      (.lookup ['b'] none []) (fun _ none => by cases none) trivial rfl, by decide⟩, ?_⟩
  exact ⟨_, .next (.next (.next .init .register trivial trivial rfl)
    (.link 4 2 ['t', 't', 'y']) ⟨by decide, by decide⟩ trivial rfl)
    (.link 4 2 ['t', 't', 'y']) ⟨by decide, by decide⟩ trivial rfl, by decide⟩

end Runs

end Mftt.Vfs
