import Mftt.OpenFiles
import Mathlib.Tactic.SplitIfs

/-!
# Descriptor arguments

Eleven system calls take a descriptor from a register, convert it to `int` and index `files[]`
with it. None of them compares it with the length of the table. The model of a call keeps the
indices it uses. An index outside the table ends it: in C the call goes on with whatever stands
there.

What a call does once it has its files is the parameter `rest`, except for `close`, `dup` and
`dup3`, whose whole effect is on the table.
-/

namespace Mftt.OpenFiles

abbrev Register := BitVec 64

abbrev AT_FDCWD : Int := -100

/-- `(int)register`. -/
def intOf (register : Register) : Int := (register.setWidth 32).toInt

/-- `(int)(register & 0xFFFFFFFF)`. -/
def intOfMasked (register : Register) : Int := ((register &&& 0xFFFFFFFF#64).setWidth 32).toInt

/-- The register that holds `AT_FDCWD`. -/
def cwdRegister : Register := BitVec.ofInt 64 AT_FDCWD

/-- The indices with which a call accessed `files[]`, and how it ended. -/
structure Access where
  indexed : List Int
  result : Except Fault (Int × OpenFiles)

namespace Access

/-- No further access. -/
def done (result : Except Fault (Int × OpenFiles)) : Access := ⟨[], result⟩

/-- An access before others. -/
def prepend (index : Int) (access : Access) : Access := ⟨index :: access.indexed, access.result⟩

end Access

open Access

/-- An index inside the table. -/
def InTable (fd : Int) : Prop := 0 ≤ fd ∧ fd < MAX_FILE_OPEN

instance (fd : Int) : Decidable (InTable fd) := inferInstanceAs (Decidable (_ ∧ _))

/-- `files[fd]`. -/
def fileAt (s : OpenFiles) (pid : Nat) (fd : Int) (next : Nat → Access) : Access :=
  if InTable fd then prepend fd (next (s.files (pid, fd.toNat)))
  else ⟨[fd], .error .outOfBounds⟩

/-- What a call does with the files it found; the current directory counts as 0. -/
abbrev Rest := List Nat → OpenFiles → Except Fault (Int × OpenFiles)

/-- A call that needs an open file: without one it returns `failed`. -/
def onFile (s : OpenFiles) (pid : Nat) (fd failed : Int) (use : Nat → Access) : Access :=
  s.fileAt pid fd fun file => if file = 0 then done (.ok (failed, s)) else use file

/-- The two paths of `sys_linkat`: whether they start with a slash, and whether the old one
leads to a dentry. -/
structure LinkPaths where
  oldAbsolute : Bool
  newAbsolute : Bool
  oldFound : Bool

/-- A system call with its descriptors. `named` says that `ustrcpy_out` gave the path; `none`
that it did not give both. -/
inductive FdCall where
  | close (a0 : Register)
  | read (a0 : Register)
  | write (a0 : Register)
  | lseek (a0 : Register)
  | getdents64 (a0 : Register)
  | fstat (a0 ukstat : Register)
  | dup (a0 : Register)
  | dup3 (a0 a1 : Register)
  | openat (a0 : Register) (named : Bool)
  | mkdirat (a0 : Register) (named : Bool)
  | linkat (a0 a2 : Register) (paths : Option LinkPaths)

section Calls

variable (rest : Rest) (s : OpenFiles) (pid : Nat)

/-- The second half of `sys_linkat`, with the descriptor of the new directory. It tests the
descriptor and not the file. -/
def linkNew (old : Nat) (newdirfd : Int) (newAbsolute : Bool) : Access :=
  if newdirfd = AT_FDCWD then done (rest [old, 0] s)
  else if newAbsolute then done (rest [old] s)
  else
    s.fileAt pid newdirfd fun file =>
      if newdirfd = 0 then done (.ok (-1, s))
      else if file = 0 then done (.error .nullPointer)
      else done (rest [old, file] s)

/-- `sys_linkat` after the lookup of the old path. -/
def linkFound (paths : LinkPaths) (old : Nat) (newdirfd : Int) : Access :=
  if paths.oldFound then linkNew rest s pid old newdirfd paths.newAbsolute
  else done (.ok (-1, s))

/-- `sys_linkat`. -/
def sysLinkat (olddirfd newdirfd : Int) (paths : LinkPaths) : Access :=
  if olddirfd = AT_FDCWD then linkFound rest s pid paths 0 newdirfd
  else if paths.oldAbsolute then linkFound rest s pid paths 0 newdirfd
  else s.onFile pid olddirfd (-1) fun file => linkFound rest s pid paths file newdirfd

/-- The system calls. -/
def access : FdCall → Access
  | .close a0 => s.fileAt pid (intOfMasked a0) fun _ => done (s.sysClose pid (intOfMasked a0).toNat)
  | .read a0 => s.onFile pid (intOfMasked a0) (-1) fun file => done (rest [file] s)
  | .write a0 => s.onFile pid (intOfMasked a0) (-1) fun file => done (rest [file] s)
  | .lseek a0 => s.onFile pid (intOf a0) (-1) fun file => done (rest [file] s)
  | .getdents64 a0 =>
    if intOf a0 = AT_FDCWD then done (.ok (0, s))
    else s.onFile pid (intOf a0) 0 fun file => done (rest [file] s)
  | .fstat a0 ukstat =>
    if ukstat = 0 then done (.ok (-1, s))
    else s.onFile pid (intOf a0) (-1) fun file => done (rest [file] s)
  | .dup a0 => s.fileAt pid (intOf a0) fun _ => done (s.sysDup2 pid (intOf a0).toNat)
  | .dup3 a0 a1 =>
    s.onFile pid (intOf a0) (-1) fun _ =>
      s.fileAt pid (intOf a1) fun _ => done (s.sysDup3 pid (intOf a0).toNat (intOf a1).toNat)
  | .openat a0 named =>
    if named then
      if intOfMasked a0 = AT_FDCWD then done (rest [0] s)
      else s.onFile pid (intOfMasked a0) (-2) fun file => done (rest [file] s)
    else done (.ok (-1, s))
  | .mkdirat a0 named =>
    if named then
      if intOf a0 = AT_FDCWD then done (rest [0] s)
      else s.onFile pid (intOf a0) (-1) fun file => done (rest [file] s)
    else done (.ok (-1, s))
  | .linkat _ _ none => done (.ok (-1, s))
  | .linkat a0 a2 (some paths) => sysLinkat rest s pid (intOf a0) (intOf a2) paths

end Calls

/-- A descriptor argument: its register, whether it may be `AT_FDCWD`, and whether it has to be
open. -/
structure FdArg where
  register : Register
  cwd : Bool := false
  opened : Bool := true

/-- The descriptor arguments of a call. The new descriptor of `dup3` need not be open. -/
def FdCall.args : FdCall → List FdArg
  | .close a0 | .read a0 | .write a0 | .lseek a0 | .getdents64 a0 | .fstat a0 _ | .dup a0 =>
    [{ register := a0 }]
  | .dup3 a0 a1 => [{ register := a0 }, { register := a1, opened := false }]
  | .openat a0 _ | .mkdirat a0 _ => [{ register := a0, cwd := true }]
  | .linkat a0 a2 _ => [{ register := a0, cwd := true }, { register := a2, cwd := true }]

/-- An argument that the call has to accept. -/
def Fine (s : OpenFiles) (pid : Nat) (arg : FdArg) : Prop :=
  (arg.cwd = true ∧ arg.register = cwdRegister) ∨
    (arg.register.toNat < MAX_FILE_OPEN ∧
      (arg.opened = true → s.files (pid, arg.register.toNat) ≠ 0))

/-- A result with which a call says that it failed. -/
def FdCall.failure : FdCall → Int → Prop
  | .getdents64 _, result => result = 0
  | _, result => result < 0

/-- The table is only accessed inside its bounds. -/
def Access.Safe (access : Access) : Prop :=
  ∀ index ∈ access.indexed, InTable index

/-- The call fails and changes nothing. -/
def Access.Rejects (access : Access) (s : OpenFiles) (failure : Int → Prop) : Prop :=
  ∃ result, failure result ∧ access.result = .ok (result, s)

/-- The descriptors of a call are validated: whatever it does with its files, the table is only
accessed inside its bounds, and with an argument that is not fine the call fails and changes
nothing. -/
def Validated (s : OpenFiles) (pid : Nat) (call : FdCall) : Prop :=
  ∀ rest : Rest, (access rest s pid call).Safe ∧
    ((∃ arg ∈ call.args, ¬s.Fine pid arg) → (access rest s pid call).Rejects s call.failure)

variable {register : Register}

section Conversions

theorem int_of_masked (register : Register) : intOfMasked register = intOf register := by
  rw [intOfMasked, BitVec.setWidth_and]
  congr 1
  exact BitVec.and_allOnes

theorem int_of_small (small : register.toNat < MAX_FILE_OPEN) :
    intOf register = register.toNat := by
  have low : (register.setWidth 32).toNat = register.toNat := by
    exact Nat.mod_eq_of_lt (lt_trans small (by decide))
  rw [intOf, BitVec.toInt_eq_toNat_of_lt, low]
  have : (MAX_FILE_OPEN : Nat) = 128 := rfl
  omega

theorem int_of_cwd : intOf cwdRegister = AT_FDCWD := by decide

end Conversions

section Accesses

variable {s : OpenFiles} {pid : Nat} {fd failed : Int} {next use : Nat → Access}
  {failure : Int → Prop}

@[simp] theorem done_safe (result : Except Fault (Int × OpenFiles)) : (done result).Safe := by
  intro index none
  cases none

@[simp] theorem done_rejects (result : Except Fault (Int × OpenFiles)) :
    (done result).Rejects s failure ↔ ∃ value, failure value ∧ result = .ok (value, s) := Iff.rfl

@[simp] theorem file_at_safe :
    (s.fileAt pid fd next).Safe ↔ InTable fd ∧ (next (s.files (pid, fd.toNat))).Safe := by
  rw [fileAt]
  split
  · rename_i inside
    simp [Access.Safe, prepend]
  · rename_i outside
    simp [Access.Safe, outside]

@[simp] theorem file_at_rejects :
    (s.fileAt pid fd next).Rejects s failure ↔
      InTable fd ∧ (next (s.files (pid, fd.toNat))).Rejects s failure := by
  rw [fileAt]
  split
  · rename_i inside
    simp [Access.Rejects, prepend, inside]
  · rename_i outside
    simp [Access.Rejects, outside]

@[simp] theorem on_file_safe :
    (s.onFile pid fd failed use).Safe ↔ InTable fd ∧
      (s.files (pid, fd.toNat) ≠ 0 → (use (s.files (pid, fd.toNat))).Safe) := by
  rw [onFile, file_at_safe]
  split <;> simp [*]

/-- A call that needs an open file rejects an empty slot. -/
theorem on_file_rejects (fails : failure failed) :
    (s.onFile pid fd failed use).Rejects s failure ↔ InTable fd ∧
      (s.files (pid, fd.toNat) ≠ 0 → (use (s.files (pid, fd.toNat))).Rejects s failure) := by
  rw [onFile, file_at_rejects]
  split
  · simp [*]
  · simp [*]

/-- A register with an index of the table whose slot is empty. -/
def Empty (s : OpenFiles) (pid : Nat) (register : Register) : Prop :=
  InTable (intOf register) ∧ s.files (pid, (intOf register).toNat) = 0

instance (s : OpenFiles) (pid : Nat) (register : Register) : Decidable (s.Empty pid register) :=
  inferInstanceAs (Decidable (_ ∧ _))

theorem in_table_of_small (small : register.toNat < MAX_FILE_OPEN) : InTable (intOf register) := by
  rw [int_of_small small]
  exact ⟨Int.natCast_nonneg _, Int.ofNat_lt.mpr small⟩

theorem file_of_small (small : register.toNat < MAX_FILE_OPEN) :
    s.files (pid, (intOf register).toNat) = s.files (pid, register.toNat) := by
  rw [int_of_small small, Int.toNat_natCast]

/-- A descriptor is an index of the table, and fine if its slot is open, exactly if the register
holds an index or is taken for one whose slot is empty. -/
theorem small_or_empty (register : Register) (cwd : Bool) :
    InTable (intOf register) ∧ (s.files (pid, (intOf register).toNat) ≠ 0 →
        s.Fine pid { register := register, cwd := cwd }) ↔
      register.toNat < MAX_FILE_OPEN ∨ s.Empty pid register := by
  constructor
  · rintro ⟨inside, fine⟩
    by_cases empty : s.files (pid, (intOf register).toNat) = 0
    · exact .inr ⟨inside, empty⟩
    · rcases fine empty with ⟨_, isCwd⟩ | ⟨small, _⟩
      · have negative : intOf register = AT_FDCWD := (congrArg intOf isCwd).trans int_of_cwd
        rw [negative] at inside
        exact absurd inside (by decide)
      · exact .inl small
  · rintro (small | ⟨inside, empty⟩)
    · refine ⟨in_table_of_small small, fun opened => .inr ⟨small, fun _ => ?_⟩⟩
      rwa [file_of_small small] at opened
    · exact ⟨inside, fun opened => absurd empty opened⟩

end Accesses

section Validation

variable {s : OpenFiles} {pid : Nat} {call : FdCall} {failed : Int} {paths : LinkPaths}

theorem validated_on_file {cwd : Bool} (fails : call.failure failed)
    (args : call.args = [{ register := register, cwd := cwd }])
    (goes : ∀ rest, access rest s pid call =
      s.onFile pid (intOf register) failed fun file => done (rest [file] s)) :
    s.Validated pid call ↔ register.toNat < MAX_FILE_OPEN ∨ s.Empty pid register := by
  rw [← small_or_empty register cwd]
  simp only [Validated, goes, args, List.mem_singleton, exists_eq_left]
  constructor
  · intro validated
    obtain ⟨safe, rejects⟩ := validated fun _ _ => .error .unfinished
    refine ⟨(on_file_safe.mp safe).1, fun opened => ?_⟩
    by_contra bad
    obtain ⟨_, value, _, impossible⟩ := (on_file_rejects fails).mp (rejects bad) |>.imp_right
      fun rejected => (done_rejects _).mp (rejected opened)
    cases impossible
  · rintro ⟨inside, fine⟩ rest
    exact ⟨on_file_safe.mpr ⟨inside, fun _ => done_safe _⟩, fun bad =>
      (on_file_rejects fails).mpr ⟨inside, fun opened => absurd (fine opened) bad⟩⟩

theorem validated_on_directory (fails : call.failure failed)
    (args : call.args = [{ register := register, cwd := true }])
    (goes : ∀ rest, access rest s pid call =
      if intOf register = AT_FDCWD then done (rest [0] s)
      else s.onFile pid (intOf register) failed fun file => done (rest [file] s)) :
    s.Validated pid call ↔
      register.toNat < MAX_FILE_OPEN ∨ register = cwdRegister ∨ s.Empty pid register := by
  by_cases isCwd : intOf register = AT_FDCWD
  · have outside : ¬InTable (intOf register) := by
      rw [isCwd]
      decide
    have notSmall : ¬register.toNat < MAX_FILE_OPEN := fun small =>
      outside (in_table_of_small small)
    simp only [Validated, goes, if_pos isCwd, args, List.mem_singleton, exists_eq_left]
    constructor
    · intro validated
      by_contra none
      have bad : ¬s.Fine pid { register := register, cwd := true } := by
        rintro (⟨_, same⟩ | ⟨small, _⟩)
        · exact none (.inr (.inl same))
        · exact notSmall small
      obtain ⟨value, _, impossible⟩ := (validated fun _ _ => .error .unfinished).2 bad
      cases impossible
    · rintro (small | same | empty) rest
      · exact absurd small notSmall
      · exact ⟨done_safe _, fun bad => absurd (.inl ⟨rfl, same⟩) bad⟩
      · exact absurd empty.1 outside
  · have notSame : register ≠ cwdRegister := fun same => isCwd (same ▸ int_of_cwd)
    rw [validated_on_file fails args fun rest => (goes rest).trans (if_neg isCwd)]
    simp [notSame]

theorem close_rejects {fd : Nat} :
    (∃ value < 0, s.sysClose pid fd = .ok (value, s)) ↔ s.files (pid, fd) = 0 := by
  rw [sysClose]
  constructor
  · rintro ⟨value, negative, returns⟩
    by_contra opened
    rw [if_neg opened] at returns
    obtain ⟨_, _, returns⟩ := bind_eq_ok.mp returns
    cases returns
    exact absurd negative (by decide)
  · intro empty
    exact ⟨-1, by decide, if_pos empty⟩

theorem dup_rejects {fd : Nat} :
    (∃ value < 0, s.sysDup2 pid fd = .ok (value, s)) ↔
      s.files (pid, fd) = 0 ∨ s.firstFree pid = none := by
  rw [sysDup2]
  constructor
  · rintro ⟨value, negative, returns⟩
    by_contra neither
    rw [not_or] at neither
    obtain ⟨newFd, free⟩ := Option.ne_none_iff_exists'.mp neither.2
    rw [if_neg neither.1, free] at returns
    have same := (Prod.mk.inj (Except.ok.inj returns)).1
    omega
  · rintro (empty | full)
    · exact ⟨-1, by decide, if_pos empty⟩
    · refine ⟨-1, by decide, ?_⟩
      rw [full]
      exact ite_self _

theorem dup3_accepts {oldFd newFd : Nat} (opened : s.files (pid, oldFd) ≠ 0) :
    ¬∃ value < 0, s.sysDup3 pid oldFd newFd = .ok (value, s) := by
  rintro ⟨value, negative, returns⟩
  rw [sysDup3, if_neg opened] at returns
  obtain ⟨_, _, returns⟩ := bind_eq_ok.mp returns
  have same := (Prod.mk.inj (Except.ok.inj returns)).1
  omega

theorem fine_file :
    s.Fine pid { register := register } ↔
      register.toNat < MAX_FILE_OPEN ∧ s.files (pid, register.toNat) ≠ 0 := by
  simp [Fine]

theorem fine_new :
    s.Fine pid { register := register, opened := false } ↔ register.toNat < MAX_FILE_OPEN := by
  simp [Fine]

theorem minus_one : (-1 : Int) < 0 := by decide

theorem rest_nonempty : Nonempty Rest := ⟨fun _ _ => .error .unfinished⟩

theorem validated_close (a0 : Register) :
    s.Validated pid (.close a0) ↔ a0.toNat < MAX_FILE_OPEN ∨ s.Empty pid a0 := by
  have := rest_nonempty
  rw [← small_or_empty a0 false]
  simp only [Validated, access, int_of_masked, file_at_safe, file_at_rejects, done_safe, and_true,
    done_rejects, FdCall.args, FdCall.failure, close_rejects, List.mem_singleton, exists_eq_left,
    forall_const]
  refine and_congr_right fun inside => ?_
  simp only [inside, true_and]
  exact not_imp_comm

theorem validated_dup (a0 : Register) :
    s.Validated pid (.dup a0) ↔ a0.toNat < MAX_FILE_OPEN ∨ s.Empty pid a0 ∨
      InTable (intOf a0) ∧ s.firstFree pid = none := by
  have := rest_nonempty
  rw [← or_assoc, ← small_or_empty a0 false]
  simp only [Validated, access, file_at_safe, file_at_rejects, done_safe, and_true, done_rejects,
    FdCall.args, FdCall.failure, dup_rejects, List.mem_singleton, exists_eq_left, forall_const]
  rw [← and_or_left]
  refine and_congr_right fun inside => ?_
  simp only [inside, true_and]
  constructor
  · intro rejects
    by_cases full : s.firstFree pid = none
    · exact .inr full
    · exact .inl (not_imp_comm.mp fun bad => (rejects bad).resolve_right full)
  · rintro (fine | full) bad
    · exact .inl (not_imp_comm.mpr fine bad)
    · exact .inr full

theorem validated_dup3 (a0 a1 : Register) :
    s.Validated pid (.dup3 a0 a1) ↔ s.Empty pid a0 ∨
      a0.toNat < MAX_FILE_OPEN ∧ a1.toNat < MAX_FILE_OPEN := by
  have := rest_nonempty
  have fails : FdCall.failure (.dup3 a0 a1) (-1) := minus_one
  simp only [Validated, access, on_file_safe, on_file_rejects fails, file_at_safe,
    file_at_rejects, done_safe, and_true, FdCall.args, forall_const]
  have bad : (∃ arg ∈ [{ register := a0 }, ({ register := a1, opened := false } : FdArg)],
      ¬s.Fine pid arg) ↔ ¬(s.Fine pid { register := a0 } ∧ a1.toNat < MAX_FILE_OPEN) := by
    rw [not_and_or]
    simp [fine_new]
  rw [bad]
  constructor
  · rintro ⟨⟨inside, _⟩, rejects⟩
    by_cases empty : s.files (pid, (intOf a0).toNat) = 0
    · exact .inl ⟨inside, empty⟩
    · right
      by_contra some
      have fine : ¬(s.Fine pid { register := a0 } ∧ a1.toNat < MAX_FILE_OPEN) := by
        rintro ⟨fine, small⟩
        exact some ⟨(fine_file.mp fine).1, small⟩
      exact dup3_accepts empty ((rejects fine).2 empty).2
  · rintro (⟨inside, empty⟩ | ⟨small, small'⟩)
    · exact ⟨⟨inside, fun opened => absurd empty opened⟩, fun _ =>
        ⟨inside, fun opened => absurd empty opened⟩⟩
    · have inside := in_table_of_small small
      refine ⟨⟨inside, fun _ => in_table_of_small small'⟩, fun bad => ⟨inside, fun opened => ?_⟩⟩
      rw [file_of_small small] at opened
      exact absurd ⟨fine_file.mpr ⟨small, opened⟩, small'⟩ bad

/-- The old descriptor of `linkat` is used. -/
def LinkPaths.oldIndexed (paths : LinkPaths) (a0 : Register) : Prop :=
  intOf a0 ≠ AT_FDCWD ∧ paths.oldAbsolute = false

/-- The new descriptor of `linkat` is used, once the old path has been found. -/
def LinkPaths.newIndexed (paths : LinkPaths) (a2 : Register) : Prop :=
  intOf a2 ≠ AT_FDCWD ∧ paths.newAbsolute = false

/-- Both descriptors of `linkat` are fine. -/
def FineLink (s : OpenFiles) (pid : Nat) (a0 a2 : Register) : Prop :=
  s.Fine pid { register := a0, cwd := true } ∧ s.Fine pid { register := a2, cwd := true }

/-- A fine descriptor that is not `AT_FDCWD` is an open slot. -/
theorem fine_directory (fine : s.Fine pid { register := register, cwd := true })
    (notCwd : intOf register ≠ AT_FDCWD) :
    InTable (intOf register) ∧ s.files (pid, (intOf register).toNat) ≠ 0 := by
  rcases fine with ⟨_, same⟩ | ⟨small, opened⟩
  · exact absurd ((congrArg intOf same).trans int_of_cwd) notCwd
  · exact ⟨in_table_of_small small, by rw [file_of_small small]; exact opened rfl⟩

/-- The second half of `linkat` is safe for every continuation, and where the descriptors are not
fine rejects for every continuation, exactly if it fails on descriptor 0 or they are fine. -/
theorem validated_link_new {a0 a2 : Register} {old : Nat} :
    (∀ rest : Rest, (linkNew rest s pid old (intOf a2) paths.newAbsolute).Safe ∧
      (¬s.FineLink pid a0 a2 →
        (linkNew rest s pid old (intOf a2) paths.newAbsolute).Rejects s (· < 0))) ↔
      paths.newIndexed a2 ∧ intOf a2 = 0 ∨ s.FineLink pid a0 a2 := by
  by_cases indexed : paths.newIndexed a2
  · have goes (rest : Rest) : linkNew rest s pid old (intOf a2) paths.newAbsolute =
        s.fileAt pid (intOf a2) fun file =>
          if intOf a2 = 0 then done (.ok (-1, s))
          else if file = 0 then done (.error .nullPointer)
          else done (rest [old, file] s) := by
      rw [linkNew, if_neg indexed.1, indexed.2]
      rfl
    simp only [goes, file_at_safe, file_at_rejects, indexed, true_and]
    by_cases zero : intOf a2 = 0
    · have inside : InTable (intOf a2) := by
        rw [zero]
        decide
      simp only [zero, if_true, done_safe, true_or, iff_true]
      exact fun _ => ⟨⟨zero ▸ inside, trivial⟩, fun _ => ⟨zero ▸ inside, -1, minus_one, rfl⟩⟩
    · simp only [zero, if_false, false_or]
      constructor
      · intro validated
        by_contra bad
        obtain ⟨_, value, _, impossible⟩ := (validated fun _ _ => .error .unfinished).2 bad
        split at impossible <;> cases impossible
      · intro fine rest
        obtain ⟨inside, opened⟩ := fine_directory fine.2 indexed.1
        refine ⟨⟨inside, ?_⟩, fun bad => absurd fine bad⟩
        rw [if_neg opened]
        exact done_safe _
  · have goes (rest : Rest) : ∃ files,
        linkNew rest s pid old (intOf a2) paths.newAbsolute = done (rest files s) := by
      rw [linkNew]
      by_cases isCwd : intOf a2 = AT_FDCWD
      · exact ⟨_, if_pos isCwd⟩
      · have absolute : paths.newAbsolute = true := by
          cases absolute : paths.newAbsolute with
          | true => rfl
          | false => exact absurd ⟨isCwd, absolute⟩ indexed
        exact ⟨_, by rw [if_neg isCwd, absolute]; rfl⟩
    simp only [indexed, false_and, false_or]
    constructor
    · intro validated
      by_contra bad
      obtain ⟨files, same⟩ := goes fun _ _ => .error .unfinished
      have rejects := (validated fun _ _ => .error .unfinished).2 bad
      rw [same] at rejects
      obtain ⟨value, _, impossible⟩ := rejects
      cases impossible
    · intro fine rest
      obtain ⟨files, same⟩ := goes rest
      rw [same]
      exact ⟨done_safe _, fun bad => absurd fine bad⟩

/-- When `linkat` validates its descriptors, once the old path was looked up. -/
def LinkChecked (s : OpenFiles) (pid : Nat) (a0 a2 : Register) (paths : LinkPaths) : Prop :=
  paths.oldFound = false ∨ paths.newIndexed a2 ∧ intOf a2 = 0 ∨ s.FineLink pid a0 a2

theorem validated_link_found {a0 a2 : Register} {old : Nat} :
    (∀ rest : Rest, (linkFound rest s pid paths old (intOf a2)).Safe ∧
      (¬s.FineLink pid a0 a2 → (linkFound rest s pid paths old (intOf a2)).Rejects s (· < 0))) ↔
      s.LinkChecked pid a0 a2 paths := by
  rw [LinkChecked]
  cases found : paths.oldFound with
  | true =>
    simp only [linkFound, found, reduceCtorEq, false_or]
    exact validated_link_new
  | false =>
    simp only [linkFound, found, reduceCtorEq, if_false, done_safe, true_and, true_or, iff_true]
    exact fun _ _ => ⟨-1, minus_one, rfl⟩

theorem validated_linkat (a0 a2 : Register) (paths : LinkPaths) :
    s.Validated pid (.linkat a0 a2 (some paths)) ↔
      paths.oldIndexed a0 ∧ s.Empty pid a0 ∨
      (paths.oldIndexed a0 → InTable (intOf a0)) ∧ s.LinkChecked pid a0 a2 paths := by
  have bad : (∃ arg ∈ FdCall.args (.linkat a0 a2 (some paths)), ¬s.Fine pid arg) ↔
      ¬s.FineLink pid a0 a2 := by
    rw [FineLink, not_and_or]
    simp [FdCall.args]
  simp only [Validated, bad]
  by_cases indexed : paths.oldIndexed a0
  · have goes (rest : Rest) : access rest s pid (.linkat a0 a2 (some paths)) =
        s.onFile pid (intOf a0) (-1) fun file => linkFound rest s pid paths file (intOf a2) := by
      show sysLinkat rest s pid (intOf a0) (intOf a2) paths = _
      rw [sysLinkat, if_neg indexed.1, indexed.2]
      rfl
    have fails : FdCall.failure (.linkat a0 a2 (some paths)) (-1) := minus_one
    have := rest_nonempty
    simp only [goes, on_file_safe, on_file_rejects fails, indexed]
    by_cases inside : InTable (intOf a0)
    · by_cases empty : s.files (pid, (intOf a0).toNat) = 0
      · simp [inside, empty, Empty]
      · have notEmpty : ¬s.Empty pid a0 := fun emptied => empty emptied.2
        simp only [inside, true_and, ne_eq, empty, not_false_eq_true, true_imp_iff, notEmpty,
          false_or]
        exact validated_link_found
    · have notEmpty : ¬s.Empty pid a0 := fun emptied => inside emptied.1
      simp [inside, notEmpty]
  · have goes (rest : Rest) : access rest s pid (.linkat a0 a2 (some paths)) =
        linkFound rest s pid paths 0 (intOf a2) := by
      show sysLinkat rest s pid (intOf a0) (intOf a2) paths = _
      rw [sysLinkat]
      by_cases isCwd : intOf a0 = AT_FDCWD
      · exact if_pos isCwd
      · have absolute : paths.oldAbsolute = true := by
          cases absolute : paths.oldAbsolute with
          | true => rfl
          | false => exact absurd ⟨isCwd, absolute⟩ indexed
        rw [if_neg isCwd, absolute]
        rfl
    simp only [goes, indexed, false_and, false_or, false_imp_iff, true_and]
    exact validated_link_found

/-- When a call validates its descriptors. -/
def Checked (s : OpenFiles) (pid : Nat) : FdCall → Prop
  | .close a0 | .read a0 | .write a0 | .lseek a0 => a0.toNat < MAX_FILE_OPEN ∨ s.Empty pid a0
  | .getdents64 a0 => intOf a0 = AT_FDCWD ∨ a0.toNat < MAX_FILE_OPEN ∨ s.Empty pid a0
  | .fstat a0 ukstat => ukstat = 0 ∨ a0.toNat < MAX_FILE_OPEN ∨ s.Empty pid a0
  | .dup a0 =>
    a0.toNat < MAX_FILE_OPEN ∨ s.Empty pid a0 ∨ InTable (intOf a0) ∧ s.firstFree pid = none
  | .dup3 a0 a1 => s.Empty pid a0 ∨ a0.toNat < MAX_FILE_OPEN ∧ a1.toNat < MAX_FILE_OPEN
  | .openat a0 named | .mkdirat a0 named =>
    named = false ∨ a0.toNat < MAX_FILE_OPEN ∨ a0 = cwdRegister ∨ s.Empty pid a0
  | .linkat _ _ none => True
  | .linkat a0 a2 (some paths) =>
    paths.oldIndexed a0 ∧ s.Empty pid a0 ∨
      (paths.oldIndexed a0 → InTable (intOf a0)) ∧ s.LinkChecked pid a0 a2 paths

theorem validated_early (fails : call.failure failed)
    (goes : ∀ rest, access rest s pid call = done (.ok (failed, s))) : s.Validated pid call := by
  intro rest
  rw [goes]
  exact ⟨done_safe _, fun _ => ⟨failed, fails, rfl⟩⟩

/-- The descriptor arguments of a call are validated exactly under `Checked`. -/
theorem descriptors_validated (s : OpenFiles) (pid : Nat) (call : FdCall) :
    s.Validated pid call ↔ s.Checked pid call := by
  cases call with
  | close a0 => exact validated_close a0
  | read a0 =>
    exact validated_on_file minus_one rfl fun rest => by rw [access, int_of_masked]
  | write a0 =>
    exact validated_on_file minus_one rfl fun rest => by rw [access, int_of_masked]
  | lseek a0 => exact validated_on_file minus_one rfl fun rest => rfl
  | getdents64 a0 =>
    by_cases isCwd : intOf a0 = AT_FDCWD
    · exact iff_of_true (validated_early rfl fun rest => if_pos isCwd) (.inl isCwd)
    · rw [Checked, or_iff_right isCwd]
      exact validated_on_file rfl rfl fun rest => if_neg isCwd
  | fstat a0 ukstat =>
    by_cases null : ukstat = 0
    · exact iff_of_true (validated_early minus_one fun rest => if_pos null) (.inl null)
    · rw [Checked, or_iff_right null]
      exact validated_on_file minus_one rfl fun rest => if_neg null
  | dup a0 => exact validated_dup a0
  | dup3 a0 a1 => exact validated_dup3 a0 a1
  | openat a0 named =>
    cases named with
    | false => exact iff_of_true (validated_early minus_one fun rest => rfl) (.inl rfl)
    | true =>
      rw [Checked, or_iff_right (by decide)]
      refine validated_on_directory (show (-2 : Int) < 0 by decide) rfl fun rest => ?_
      rw [access, int_of_masked]
      rfl
  | mkdirat a0 named =>
    cases named with
    | false => exact iff_of_true (validated_early minus_one fun rest => rfl) (.inl rfl)
    | true =>
      rw [Checked, or_iff_right (by decide)]
      exact validated_on_directory minus_one rfl fun rest => rfl
  | linkat a0 a2 paths =>
    cases paths with
    | none => exact iff_of_true (validated_early minus_one fun rest => rfl) trivial
    | some paths => exact validated_linkat a0 a2 paths

/-- One process with one open file, at descriptor 3. -/
def oneFile : OpenFiles where
  file _ := { fInode := some 1, fCounts := 1 }
  allocated := {8}
  files slot := if slot = (1, 3) then 8 else 0
  iCounts _ := 1

/-- `close(128)` indexes the table with 128, `dup3(3, 200)` stores there, and `close` of the
register `2^32 + 3` closes descriptor 3. -/
theorem descriptors_unchecked :
    (access (fun _ s => .ok (0, s)) oneFile 1 (.close 128#64)).indexed = [128] ∧
    (access (fun _ s => .ok (0, s)) oneFile 1 (.dup3 3#64 200#64)).indexed = [3, 200] ∧
    (access (fun _ s => .ok (0, s)) oneFile 1 (.close 0x100000003#64)).result =
      oneFile.sysClose 1 3 ∧
    ¬oneFile.Validated 1 (.close 128#64) ∧ ¬oneFile.Validated 1 (.dup3 3#64 200#64) ∧
    ¬oneFile.Validated 1 (.close 0x100000003#64) := by
  refine ⟨rfl, rfl, rfl, ?_, ?_, ?_⟩
  · rw [validated_close]
    decide
  · rw [validated_dup3]
    decide
  · rw [validated_close]
    decide

end Validation

end Mftt.OpenFiles
