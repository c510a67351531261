import Mftt.ByteMemory
import Mftt.CopyMoves
import Mftt.UserCopy

/-!
# memcpy, and copies across the boundary of user memory

`memcpy` copies byte by byte, from the end if its target overlaps the end of its source. All
addresses and sizes are unsigned 64-bit numbers, and a range that passes the last address goes
on at 0. The moves that a copy makes are kept with the memory it leaves, since a copy for a user
must not touch kernel memory on the side of the user.

That an access can fault is left out here: what a range may touch does not depend on it.
-/

namespace Mftt

open ByteMemory CopyMoves Function

/-- The number of addresses. -/
abbrev ADDRESSES : Nat := 2 ^ 64

/-- `while (size-- > 0) *d++ = *s++`. -/
def forwardMoves (d s : Nat) : Nat → List (Nat × Nat)
  | 0 => []
  | size + 1 => (d % ADDRESSES, s % ADDRESSES) :: forwardMoves (d + 1) (s + 1) size

/-- `while (size-- > 0) *--d = *--s`, with the pointers behind the last of the bytes that are
left; `d` and `s` are the first ones. -/
def backwardMoves (d s : Nat) : Nat → List (Nat × Nat)
  | 0 => []
  | size + 1 => ((d + size) % ADDRESSES, (s + size) % ADDRESSES) :: backwardMoves d s size

/-- The moves of `memcpy`. -/
def memcpyMoves (dst src size : Nat) : List (Nat × Nat) :=
  if src < dst ∧ (src + size) % ADDRESSES > dst then backwardMoves dst src size
  else forwardMoves dst src size

/-- A copy that was made: the memory it left, and its moves. -/
structure Copy where
  memory : Bytes
  moves : List (Nat × Nat)

/-- `memcpy`. -/
def memcpy (memory : Bytes) (dst src size : Nat) : Copy :=
  ⟨CopyMoves.apply memory (memcpyMoves dst src size), memcpyMoves dst src size⟩

/-- `umemcpy`. -/
def umemcpy (memory : Bytes) (dst src size : Nat) : Except Fault Copy :=
  if dst < KERNEL_MEM_START then
    if src ≥ KERNEL_MEM_START then
      assert ((dst + size) % ADDRESSES < KERNEL_MEM_START) "umemcpy execeed." >>= fun _ =>
        .ok (memcpy memory dst src size)
    else
      assert ((dst + size) % ADDRESSES < KERNEL_MEM_START) "umemcpy execeed." >>= fun _ =>
        assert ((src + size) % ADDRESSES < KERNEL_MEM_START) "umemcpy execeed." >>= fun _ =>
          .ok (memcpy memory dst src size)
  else if src < KERNEL_MEM_START then
    assert ((src + size) % ADDRESSES < KERNEL_MEM_START) "umemcpy execeed." >>= fun _ =>
      .ok (memcpy memory dst src size)
  else kpanic "umemory on all kernel memory."

/-! ## The moves of the two loops -/

/-- The move of the `k`-th byte. -/
def place (d s k : Nat) : Nat × Nat := ((d + k) % ADDRESSES, (s + k) % ADDRESSES)

theorem forward_eq (d s size : Nat) :
    forwardMoves d s size = (List.range size).map (place d s) := by
  induction size generalizing d s with
  | zero => rfl
  | succ size ih =>
    have shifted : place d s ∘ Nat.succ = place (d + 1) (s + 1) := by
      funext k
      simp only [place]
      rw [Nat.add_right_comm d, Nat.add_right_comm s]
      rfl
    rw [forwardMoves, ih, List.range_succ_eq_map, List.map_cons, List.map_map, shifted]
    rfl

theorem backward_eq (d s size : Nat) :
    backwardMoves d s size = ((List.range size).map (place d s)).reverse := by
  induction size with
  | zero => rfl
  | succ size ih =>
    rw [backwardMoves, ih, List.range_succ, List.map_append, List.reverse_append]
    rfl

theorem mem_moves {dst src size : Nat} {move : Nat × Nat} : move ∈ memcpyMoves dst src size ↔
    ∃ k < size, place dst src k = move := by
  rw [memcpyMoves]
  split
  · simp [backward_eq]
  · simp [forward_eq]

/-- No move disturbs a later one when no byte is read after it was overwritten: in the loop from
the end these are the bytes behind, in the other those before. -/
theorem moves_undisturbed {dst src size : Nat} (bound : size ≤ ADDRESSES)
    (safe : ∀ j < size, ∀ k < size,
      (if src < dst ∧ (src + size) % ADDRESSES > dst then k < j else j < k) →
      (src + k) % ADDRESSES ≠ (dst + j) % ADDRESSES) :
    Undisturbed (memcpyMoves dst src size) := by
  have different : ∀ j < size, ∀ k < size, j ≠ k →
      (dst + k) % ADDRESSES ≠ (dst + j) % ADDRESSES := by
    simp only [ADDRESSES] at bound ⊢
    omega
  have increasing : (List.range size).Pairwise (· < ·) := List.pairwise_lt_range
  rw [memcpyMoves, Undisturbed]
  split
  case isTrue overlap =>
    simp only [overlap] at safe
    rw [backward_eq, List.pairwise_reverse, List.pairwise_map]
    refine increasing.imp_of_mem fun {k j} kIn jIn less => ?_
    rw [List.mem_range] at kIn jIn
    exact ⟨different j jIn k kIn (by omega), safe j jIn k kIn less⟩
  case isFalse apart =>
    simp only [apart] at safe
    rw [forward_eq, List.pairwise_map]
    refine increasing.imp_of_mem fun {j k} jIn kIn less => ?_
    rw [List.mem_range] at kIn jIn
    exact ⟨different j jIn k kIn (by omega), safe j jIn k kIn less⟩

/-- A copy whose moves do not disturb each other is as if all bytes had been read first. -/
theorem memcpy_undisturbed {dst src size : Nat} (memory : Bytes)
    (undisturbed : Undisturbed (memcpyMoves dst src size)) :
    (∀ k < size, (memcpy memory dst src size).memory ((dst + k) % ADDRESSES) =
      memory ((src + k) % ADDRESSES)) ∧
    ∀ address, (∀ k < size, (dst + k) % ADDRESSES ≠ address) →
      (memcpy memory dst src size).memory address = memory address := by
  refine ⟨fun k below => ?_, fun address outside => ?_⟩
  · exact apply_inside memory undisturbed (mem_moves.mpr ⟨k, below, rfl⟩)
  · apply apply_outside
    intro move inside
    obtain ⟨k, below, rfl⟩ := mem_moves.mp inside
    exact outside k below

/-- If neither range passes the last address, `memcpy` leaves at its target the bytes that were
at its source before, however the two overlap, and every other byte as it was. -/
theorem memcpy_overlap_safe (memory : Bytes) (dst src size : Nat)
    (dstEnds : dst + size ≤ ADDRESSES) (srcEnds : src + size ≤ ADDRESSES) :
    (∀ k < size, (memcpy memory dst src size).memory (dst + k) = memory (src + k)) ∧
    ∀ address, address < dst ∨ dst + size ≤ address →
      (memcpy memory dst src size).memory address = memory address := by
  have undisturbed : Undisturbed (memcpyMoves dst src size) := by
    apply moves_undisturbed (by omega)
    simp only [ADDRESSES] at *
    intro j jIn k kIn order
    split at order <;> omega
  obtain ⟨copied, kept⟩ := memcpy_undisturbed memory undisturbed
  refine ⟨fun k below => ?_, fun address outside => kept address (fun k below => ?_)⟩
  · have same := copied k below
    rwa [Nat.mod_eq_of_lt (by omega), Nat.mod_eq_of_lt (by omega)] at same
  · rw [Nat.mod_eq_of_lt (by omega)]
    omega

/-- Four bytes are moved up by two, over the last two of them. -/
theorem memcpy_up_by_two :
    (memcpy (BitVec.ofNat 8) 0x1002 0x1000 4).memory 0x1004 = 2#8 :=
  (memcpy_overlap_safe (BitVec.ofNat 8) 0x1002 0x1000 4 (by decide) (by decide)).1 2 (by decide)

/-! ## Copies for a user -/

/-- A copy stays below the kernel on the side of the user, and the bytes of the source, as they
were before, are then those of the target, with everything else unchanged. -/
structure UserCopied (memory : Bytes) (dst src size : Nat) (copy : Copy) : Prop where
  targets : dst < KERNEL_MEM_START → ∀ move ∈ copy.moves, move.1 < KERNEL_MEM_START
  sources : src < KERNEL_MEM_START → ∀ move ∈ copy.moves, move.2 < KERNEL_MEM_START
  copied : ∀ k < size, copy.memory ((dst + k) % ADDRESSES) = memory ((src + k) % ADDRESSES)
  kept : ∀ address, (∀ k < size, (dst + k) % ADDRESSES ≠ address) →
    copy.memory address = memory address

/-- All operands on the side of the user pass the last address. -/
def UserWraps (dst src size : Nat) : Prop :=
  (dst < KERNEL_MEM_START ∨ src < KERNEL_MEM_START) ∧
    (dst < KERNEL_MEM_START → ADDRESSES ≤ dst + size) ∧
    (src < KERNEL_MEM_START → ADDRESSES ≤ src + size)

/-- A source in the kernel passes the last address and goes on into the target. -/
def KernelWraps (dst src size : Nat) : Prop :=
  dst + size < KERNEL_MEM_START ∧ KERNEL_MEM_START ≤ src ∧ ADDRESSES + dst < src + size

theorem umemcpy_eq_ok {memory : Bytes} {dst src size : Nat} {copy : Copy} :
    umemcpy memory dst src size = .ok copy ↔
      (dst < KERNEL_MEM_START ∨ src < KERNEL_MEM_START) ∧
      (dst < KERNEL_MEM_START → (dst + size) % ADDRESSES < KERNEL_MEM_START) ∧
      (src < KERNEL_MEM_START → (src + size) % ADDRESSES < KERNEL_MEM_START) ∧
      memcpy memory dst src size = copy := by
  by_cases userDst : dst < KERNEL_MEM_START <;> by_cases userSrc : src < KERNEL_MEM_START
  all_goals
    simp [umemcpy, userDst, userSrc, Nat.not_le.mpr, Nat.not_lt.mp, bind_eq_ok, assert_eq_ok,
      kpanic]

section Ranges

variable {dst src size : Nat}

/-- A range that starts below the kernel and passes the last address goes through the kernel, and
the checks of the sums accept it. -/
theorem returns_of_user_wraps (sizeBound : size < ADDRESSES) (wraps : UserWraps dst src size)
    (memory : Bytes) :
    umemcpy memory dst src size = .ok (memcpy memory dst src size) ∧
      ¬ UserCopied memory dst src size (memcpy memory dst src size) := by
  obtain ⟨user, dstWraps, srcWraps⟩ := wraps
  simp only [ADDRESSES, KERNEL_MEM_START] at sizeBound user dstWraps srcWraps
  refine ⟨umemcpy_eq_ok.mpr ⟨user, ?_, ?_, rfl⟩, fun copied => ?_⟩
  · simp only [ADDRESSES]
    omega
  · simp only [ADDRESSES]
    omega
  · rcases user with userDst | userSrc
    · have far := copied.targets userDst (place dst src (KERNEL_MEM_START - dst))
        (mem_moves.mpr ⟨_, by simp only [KERNEL_MEM_START]; omega, rfl⟩)
      simp only [place, ADDRESSES, KERNEL_MEM_START] at far
      omega
    · have far := copied.sources userSrc (place dst src (KERNEL_MEM_START - src))
        (mem_moves.mpr ⟨_, by simp only [KERNEL_MEM_START]; omega, rfl⟩)
      simp only [place, ADDRESSES, KERNEL_MEM_START] at far
      omega

/-- A source that goes on into the target reads bytes that were overwritten: the first byte of
the target, where the memory is zero elsewhere. -/
theorem overwrites_of_kernel_wraps (srcBound : src < ADDRESSES)
    (wraps : KernelWraps dst src size) :
    ∃ memory, umemcpy memory dst src size = .ok (memcpy memory dst src size) ∧
      ¬ UserCopied memory dst src size (memcpy memory dst src size) := by
  obtain ⟨low, high, passes⟩ := wraps
  simp only [ADDRESSES, KERNEL_MEM_START] at srcBound low high passes
  refine ⟨update (fun _ => 0#8) dst 1#8, umemcpy_eq_ok.mpr ⟨?_, ?_, ?_, rfl⟩,
    fun copied => ?_⟩
  · exact .inl (by simp only [KERNEL_MEM_START]; omega)
  · simp only [ADDRESSES, KERNEL_MEM_START]
    omega
  · simp only [KERNEL_MEM_START]
    omega
  · -- the first move makes the whole memory zero, and it stays so
    have forward : ¬ (src < dst ∧ (src + size) % ADDRESSES > dst) := by omega
    have zero : (memcpy (update (fun _ => 0#8) dst 1#8) dst src size).memory =
        fun _ => 0#8 := by
      obtain ⟨rest, rfl⟩ : ∃ rest, size = rest + 1 := ⟨size - 1, by omega⟩
      have here : dst % ADDRESSES = dst := Nat.mod_eq_of_lt (by simp only [ADDRESSES]; omega)
      have there : src % ADDRESSES ≠ dst := by
        rw [Nat.mod_eq_of_lt srcBound]
        omega
      rw [memcpy, memcpyMoves, if_neg forward, forwardMoves, CopyMoves.apply, List.foldl_cons]
      rw [here, update_idem, update_of_ne there,
        update_eq_self dst (fun _ => 0#8)]
      exact apply_const 0#8 _
    have moved := copied.copied (ADDRESSES + dst - src) (by simp only [ADDRESSES]; omega)
    have source : (src + (ADDRESSES + dst - src)) % ADDRESSES = dst := by
      simp only [ADDRESSES]
      omega
    rw [zero, source, update_self] at moved
    cases moved

/-- In all other cases no byte is read after it was overwritten. -/
theorem copied_of_no_wrap (dstBound : dst < ADDRESSES) (srcBound : src < ADDRESSES)
    (sizeBound : size < ADDRESSES) (user : ¬ UserWraps dst src size)
    (kernel : ¬ KernelWraps dst src size) {memory : Bytes} {copy : Copy}
    (returns : umemcpy memory dst src size = .ok copy) :
    UserCopied memory dst src size copy := by
  obtain ⟨side, dstSum, srcSum, rfl⟩ := umemcpy_eq_ok.mp returns
  simp only [UserWraps, KernelWraps, ADDRESSES, KERNEL_MEM_START] at *
  have undisturbed : Undisturbed (memcpyMoves dst src size) := by
    apply moves_undisturbed (Nat.le_of_lt sizeBound)
    simp only [ADDRESSES]
    intro j jIn k kIn order
    split at order <;> omega
  obtain ⟨copied, kept⟩ := memcpy_undisturbed memory undisturbed
  refine ⟨fun userDst move inside => ?_, fun userSrc move inside => ?_, copied, kept⟩
  · obtain ⟨k, below, rfl⟩ := mem_moves.mp inside
    simp only [place, ADDRESSES, KERNEL_MEM_START] at *
    omega
  · obtain ⟨k, below, rfl⟩ := mem_moves.mp inside
    simp only [place, ADDRESSES, KERNEL_MEM_START] at *
    omega

end Ranges

/-- For 64-bit operands, whenever `umemcpy` returns it has stayed below the kernel on the side of
the user and has copied as if all bytes had been read first, exactly if the operands on the side
of the user do not all pass the last address, and a source in the kernel does not pass it and go
on into the target. -/
theorem umemcpy_confined_iff (dst src size : Nat) (dstBound : dst < ADDRESSES)
    (srcBound : src < ADDRESSES) (sizeBound : size < ADDRESSES) :
    (∀ memory copy, umemcpy memory dst src size = .ok copy →
      UserCopied memory dst src size copy) ↔
      ¬ UserWraps dst src size ∧ ¬ KernelWraps dst src size := by
  constructor
  · intro confined
    refine ⟨fun wraps => ?_, fun wraps => ?_⟩
    · obtain ⟨returns, fails⟩ := returns_of_user_wraps sizeBound wraps (fun _ => 0#8)
      exact fails (confined _ _ returns)
    · obtain ⟨memory, returns, fails⟩ := overwrites_of_kernel_wraps srcBound wraps
      exact fails (confined _ _ returns)
  · rintro ⟨user, kernel⟩ memory copy returns
    exact copied_of_no_wrap dstBound srcBound sizeBound user kernel returns

/-- An address of the user, and a size for which the sum passes the last address. -/
theorem umemcpy_wraps_through_kernel :
    umemcpy (fun _ => 0#8) 0x1000 0x90000000 0xFFFFFFFFFFFFFFFF =
      .ok (memcpy (fun _ => 0#8) 0x1000 0x90000000 0xFFFFFFFFFFFFFFFF) ∧
    ¬ UserCopied (fun _ => 0#8) 0x1000 0x90000000 0xFFFFFFFFFFFFFFFF
      (memcpy (fun _ => 0#8) 0x1000 0x90000000 0xFFFFFFFFFFFFFFFF) :=
  returns_of_user_wraps (by decide) (by unfold UserWraps; decide) _

/-- Four bytes to the user. -/
theorem umemcpy_confined_four :
    UserCopied (fun _ => 0#8) 0x1000 0x90000000 4 (memcpy (fun _ => 0#8) 0x1000 0x90000000 4) :=
  (umemcpy_confined_iff 0x1000 0x90000000 4 (by decide) (by decide) (by decide)).mpr
    ⟨by unfold UserWraps; decide, by unfold KernelWraps; decide⟩ _ _
    (umemcpy_eq_ok.mpr ⟨by decide, by decide, by decide, rfl⟩)

end Mftt
