import Mftt.Bitset

/-!
# Enabling interrupts at the PLIC

The registers of the interrupt controller are words of memory: a priority for each interrupt,
and for each context a block with one enable bit for each interrupt. `plic_register_irq` gives
an interrupt its priority and enables it for one context of every hart. The registers act when
they are written, so that every write counts, not only one that changes a word; the addresses
are therefore recorded.

`PLIC_INTENBITS_SIZE` is the number of bytes of a word, where the macros that use it need the
number of its bits.
-/

namespace Mftt

abbrev HARDWARE_VBASE : Nat := 0xC0000000
abbrev PLIC_VA : Nat := HARDWARE_VBASE
abbrev PLIC_INTENBITS_OFFSET : Nat := 0x2000
abbrev PLIC_INTENBITS_CONTEXT_SIZE : Nat := 0x80
abbrev PLIC_INTENBITS_SIZE : Nat := 4
abbrev PLIC_MISC_CONTEXT_OFFSET : Nat := 0x200000
abbrev HART_COUNT : Nat := 2

/-- The registers, and the addresses that were written, in their order. -/
structure Mmio where
  words : Words
  written : List Nat

/-- `MEM_IO_WRITE` of a 32-bit word. -/
def memIoWrite (io : Mmio) (address : Nat) (value : BitVec 32) : Mmio :=
  ⟨Function.update io.words address value, io.written ++ [address]⟩

/-- The first enable word of a context. -/
def enableBlock (context : Nat) : Nat :=
  PLIC_VA + PLIC_INTENBITS_OFFSET + context * PLIC_INTENBITS_CONTEXT_SIZE

/-- `PLIC_INT_ENABLE_ADDR_FOR`. -/
def plicIntEnableAddrFor (context irq : Nat) : Nat :=
  enableBlock context + 4 * (irq / PLIC_INTENBITS_SIZE)

/-- `PLIC_ENABLE_INT_FOR`. -/
def plicEnableIntFor (irq : Nat) (io : Mmio) (context : Nat) : Mmio :=
  memIoWrite io (plicIntEnableAddrFor context irq)
    (io.words (plicIntEnableAddrFor context irq) ||| (1#32 <<< (irq % PLIC_INTENBITS_SIZE)))

/-- The contexts for which interrupts are enabled: that of the supervisor of each hart or, with
`USE_SOFT_INT_COMP`, that of its machine mode. -/
def contexts (useSoftIntComp : Bool) : List Nat :=
  (List.range HART_COUNT).map (fun hart => hart * 2 + if useSoftIntComp then 0 else 1)

/-- `plic_register_irq`, whose result is always 0. -/
def plicRegisterIrq (useSoftIntComp : Bool) (io : Mmio) (irq : Nat) : Mmio :=
  (contexts useSoftIntComp).foldl (plicEnableIntFor irq) (memIoWrite io (PLIC_VA + irq * 4) 1)

/-- A sequence of registrations. -/
def plicRegisterIrqs (useSoftIntComp : Bool) (io : Mmio) (irqs : List Nat) : Mmio :=
  irqs.foldl (plicRegisterIrq useSoftIntComp) io

/-- The enable bit of an interrupt as the controller reads it. -/
def enabled (io : Mmio) (context irq : Nat) : Bool :=
  (io.words (enableBlock context + 4 * (irq / 32))).getLsbD (irq % 32)

/-- No interrupt is enabled for any context. -/
def ClearEnables (words : Words) : Prop :=
  ∀ address, PLIC_VA + PLIC_INTENBITS_OFFSET ≤ address →
    address < PLIC_VA + PLIC_MISC_CONTEXT_OFFSET → words address = 0

/-- The context of the supervisor of a hart. -/
def supervisor (hart : Nat) : Nat := hart * 2 + 1

/-- Exactly the given interrupts are enabled for the supervisor of every hart, and only words of
the enable blocks of these contexts and the priorities of these interrupts were written. -/
structure EnablesExactly (irqs : List Nat) (io : Mmio) : Prop where
  bits : ∀ hart < HART_COUNT, ∀ i < 1024, enabled io (supervisor hart) i ↔ i ∈ irqs
  writes : ∀ address ∈ io.written,
    (∃ hart < HART_COUNT, enableBlock (supervisor hart) ≤ address ∧
      address < enableBlock (supervisor hart) + PLIC_INTENBITS_CONTEXT_SIZE) ∨
    ∃ irq ∈ irqs, address = PLIC_VA + 4 * irq

/-! ## What a sequence of registrations does -/

/-- The contexts of one registration: each gets its bit, and nothing else is set. -/
theorem enable_contexts (irq : Nat) (places : List Nat) (io : Mmio) :
    (∀ address bit, ((places.foldl (plicEnableIntFor irq) io).words address).getLsbD bit ↔
      (io.words address).getLsbD bit ∨
        (bit = irq % 4 ∧ ∃ context ∈ places, address = plicIntEnableAddrFor context irq)) ∧
    (places.foldl (plicEnableIntFor irq) io).written =
      io.written ++ places.map (plicIntEnableAddrFor · irq) := by
  induction places generalizing io with
  | nil => simp
  | cons context rest ih =>
    obtain ⟨bits, writes⟩ := ih (plicEnableIntFor irq io context)
    refine ⟨fun address bit => ?_, ?_⟩
    · have small : irq % 4 < 32 := by omega
      have one : ((plicEnableIntFor irq io context).words address).getLsbD bit ↔
          (io.words address).getLsbD bit ∨
            (bit = irq % 4 ∧ address = plicIntEnableAddrFor context irq) := by
        by_cases here : address = plicIntEnableAddrFor context irq
        · subst here
          simp only [plicEnableIntFor, memIoWrite, ← BitVec.twoPow_eq]
          simp [small, eq_comm (a := bit)]
        · simp [plicEnableIntFor, memIoWrite, here]
      rw [List.foldl_cons, bits, one]
      simp only [List.mem_cons, exists_eq_or_imp, and_or_left, or_assoc]
    · rw [List.foldl_cons, writes]
      simp [plicEnableIntFor, memIoWrite]

/-- After a sequence of registrations the bits that were set are those of the words and places
that the macros compute. -/
theorem register_irqs_bit (soft : Bool) (irqs : List Nat) (io : Mmio) (address bit : Nat)
    (above : PLIC_VA + PLIC_INTENBITS_OFFSET ≤ address) (below : ∀ irq ∈ irqs, irq < 1024) :
    ((plicRegisterIrqs soft io irqs).words address).getLsbD bit ↔
      (io.words address).getLsbD bit ∨
        ∃ irq ∈ irqs, bit = irq % 4 ∧
          ∃ context ∈ contexts soft, address = plicIntEnableAddrFor context irq := by
  induction irqs generalizing io with
  | nil => simp [plicRegisterIrqs]
  | cons irq rest ih =>
    have small := below irq List.mem_cons_self
    have priority : address ≠ PLIC_VA + irq * 4 := by
      simp only [PLIC_INTENBITS_OFFSET] at above ⊢
      omega
    have later := ih (plicRegisterIrq soft io irq)
      (fun other inside => below other (List.mem_cons_of_mem _ inside))
    have first := (enable_contexts irq (contexts soft)
      (memIoWrite io (PLIC_VA + irq * 4) 1)).1 address bit
    have kept : (memIoWrite io (PLIC_VA + irq * 4) 1).words address = io.words address :=
      Function.update_of_ne priority _ _
    rw [kept] at first
    rw [plicRegisterIrqs, List.foldl_cons, ← plicRegisterIrqs, later, plicRegisterIrq, first]
    simp only [List.mem_cons, exists_eq_or_imp, or_assoc]

/-- What a sequence of registrations writes. -/
theorem register_irqs_written (soft : Bool) (irqs : List Nat) (io : Mmio) (address : Nat) :
    address ∈ (plicRegisterIrqs soft io irqs).written ↔
      address ∈ io.written ∨ ∃ irq ∈ irqs, address = PLIC_VA + irq * 4 ∨
        ∃ context ∈ contexts soft, address = plicIntEnableAddrFor context irq := by
  induction irqs generalizing io with
  | nil => simp [plicRegisterIrqs]
  | cons irq rest ih =>
    have first := (enable_contexts irq (contexts soft) (memIoWrite io (PLIC_VA + irq * 4) 1)).2
    rw [plicRegisterIrqs, List.foldl_cons, ← plicRegisterIrqs, ih, plicRegisterIrq, first]
    simp [memIoWrite, or_assoc, eq_comm (a := address)]

/-! ## Which sequences are right -/

theorem mem_contexts {soft : Bool} {context : Nat} : context ∈ contexts soft ↔
    ∃ hart < HART_COUNT, context = hart * 2 + if soft then 0 else 1 := by
  simp [contexts, eq_comm]

section Registrations

variable (soft : Bool) (irqs : List Nat) (words : Words)

/-- Enable bits come from the registrations whose word and bit, as computed, are theirs. -/
theorem registered_enabled (below : ∀ irq ∈ irqs, irq < 1024) (clear : ClearEnables words)
    {hart i : Nat} (bound : hart < HART_COUNT) (inside : i < 1024) :
    enabled (plicRegisterIrqs soft ⟨words, []⟩ irqs) (supervisor hart) i ↔
      ∃ irq ∈ irqs, i % 32 = irq % 4 ∧ ∃ other ∈ contexts soft,
        32 * supervisor hart + i / 32 = 32 * other + irq / 4 := by
  have start : words (enableBlock (supervisor hart) + 4 * (i / 32)) = 0 := by
    apply clear
    all_goals simp only [enableBlock, supervisor, PLIC_INTENBITS_OFFSET, HART_COUNT,
      PLIC_INTENBITS_CONTEXT_SIZE, PLIC_MISC_CONTEXT_OFFSET] at *; omega
  have address : ∀ other irq,
      enableBlock (supervisor hart) + 4 * (i / 32) = plicIntEnableAddrFor other irq ↔
        32 * supervisor hart + i / 32 = 32 * other + irq / 4 := by
    simp only [plicIntEnableAddrFor, enableBlock, PLIC_INTENBITS_SIZE, PLIC_INTENBITS_CONTEXT_SIZE]
    omega
  rw [enabled, register_irqs_bit soft irqs _ _ _ (by simp only [enableBlock]; omega) below]
  simp [start, address]

section Exactly

variable {soft irqs words} (below : ∀ irq ∈ irqs, irq < 1024) (clear : ClearEnables words)
  (exactly : EnablesExactly irqs (plicRegisterIrqs soft ⟨words, []⟩ irqs))
include below clear exactly

/-- The bit of a registered interrupt for the first hart comes from a registration. No block of a
later context reaches down to that of the first supervisor. -/
theorem registered_source {irq : Nat} (registered : irq ∈ irqs) :
    ∃ source ∈ irqs, irq % 32 = source % 4 ∧
      32 + irq / 32 = (if soft then 0 else 32) + source / 4 := by
  have inside := below irq registered
  obtain ⟨source, sourceIn, bit, other, otherIn, word⟩ :=
    (registered_enabled soft irqs words below clear (by decide : 0 < HART_COUNT) inside).mp
      ((exactly.bits 0 (by decide) irq inside).mpr registered)
  obtain ⟨hart, -, rfl⟩ := mem_contexts.mp otherIn
  refine ⟨source, sourceIn, bit, ?_⟩
  rw [supervisor] at word
  cases soft <;> simp only [Bool.false_eq_true, if_true, if_false] at word ⊢ <;> omega

/-- If the right bits are set for the first hart, every registered interrupt is below 4: the bit
of a greater one can only come from a smaller one that is not below 4 either. -/
theorem small_of_enabled (hard : soft = false) : ∀ irq ∈ irqs, irq < 4 := by
  intro irq
  induction irq using Nat.strongRecOn with
  | ind irq ih =>
    intro registered
    obtain ⟨source, sourceIn, bit, word⟩ := registered_source below clear exactly registered
    rw [hard, if_neg (by decide)] at word
    by_contra large
    have smaller := ih source (by omega) sourceIn
    omega

/-- With `USE_SOFT_INT_COMP` a bit for the first supervisor comes from an interrupt of 128 or
more. Three registrations that would have to account for each other do not exist. -/
theorem none_of_soft (isSoft : soft = true) : irqs = [] := by
  refine List.eq_nil_iff_forall_not_mem.mpr fun first firstIn => ?_
  obtain ⟨second, secondIn, bit₁, word₁⟩ := registered_source below clear exactly firstIn
  obtain ⟨third, thirdIn, bit₂, word₂⟩ := registered_source below clear exactly secondIn
  obtain ⟨_, -, bit₃, -⟩ := registered_source below clear exactly thirdIn
  have inside := below first firstIn
  rw [isSoft, if_pos rfl] at word₁ word₂
  omega

end Exactly

theorem enables_small (below : ∀ irq ∈ irqs, irq < 4) (clear : ClearEnables words) :
    EnablesExactly irqs (plicRegisterIrqs false ⟨words, []⟩ irqs) where
  bits := by
    intro hart bound i inside
    have range : ∀ irq ∈ irqs, irq < 1024 := fun irq registered => by
      have := below irq registered
      omega
    rw [registered_enabled false irqs words range clear bound inside]
    constructor
    · rintro ⟨irq, registered, bit, other, -, word⟩
      have small := below irq registered
      obtain rfl : i = irq := by omega
      exact registered
    · intro registered
      have small := below i registered
      exact ⟨i, registered, by omega, supervisor hart, mem_contexts.mpr ⟨hart, bound, rfl⟩,
        by omega⟩
  writes := by
    intro address written
    rw [register_irqs_written] at written
    rcases written with nothing | ⟨irq, registered, rfl | ⟨context, used, rfl⟩⟩
    · cases nothing
    · exact .inr ⟨irq, registered, by omega⟩
    · have small := below irq registered
      obtain ⟨hart, bound, rfl⟩ := mem_contexts.mp used
      refine .inl ⟨hart, bound, Nat.le_add_right .., ?_⟩
      simp only [plicIntEnableAddrFor, supervisor, PLIC_INTENBITS_SIZE,
        PLIC_INTENBITS_CONTEXT_SIZE, Bool.false_eq_true, if_false]
      omega

/-- From a clear enable area, a sequence of registrations enables exactly the registered
interrupts for the supervisors, and writes no other words, if and only if it is empty, or the
contexts are those of the supervisors and all interrupts are below 4. -/
theorem register_irqs_exact_iff (valid : ∀ irq ∈ irqs, 1 ≤ irq ∧ irq ≤ 1023)
    (clear : ClearEnables words) :
    EnablesExactly irqs (plicRegisterIrqs soft ⟨words, []⟩ irqs) ↔
      irqs = [] ∨ soft = false ∧ ∀ irq ∈ irqs, irq < 4 := by
  have range : ∀ irq ∈ irqs, irq < 1024 := fun irq registered => by
    have := valid irq registered
    omega
  constructor
  · intro exactly
    cases soft with
    | false => exact .inr ⟨rfl, small_of_enabled range clear exactly rfl⟩
    | true => exact .inl (none_of_soft range clear exactly rfl)
  · rintro (rfl | ⟨rfl, below⟩)
    -- Nothing is registered, so the choice of contexts makes no difference.
    · exact enables_small [] words (fun _ inside => by cases inside) clear
    · exact enables_small irqs words below clear

end Registrations

/-- Registering interrupt 10, that of the console, enables interrupt 66 instead. -/
theorem register_ten_enables_sixty_six :
    ¬ enabled (plicRegisterIrqs false ⟨fun _ => 0, []⟩ [10]) 1 10 ∧
    enabled (plicRegisterIrqs false ⟨fun _ => 0, []⟩ [10]) 1 66 ∧
    ¬ EnablesExactly [10] (plicRegisterIrqs false ⟨fun _ => 0, []⟩ [10]) := by
  have missing : ¬ enabled (plicRegisterIrqs false ⟨fun _ => 0, []⟩ [10]) 1 10 := by decide
  refine ⟨missing, by decide, fun exactly => missing ?_⟩
  exact (exactly.bits 0 (by decide) 10 (by decide)).mpr (by decide)

/-- The two interrupts of the first devices on the virtual board. -/
theorem register_one_and_two :
    EnablesExactly [1, 2] (plicRegisterIrqs false ⟨fun _ => 0, []⟩ [1, 2]) :=
  (register_irqs_exact_iff false [1, 2] (fun _ => 0) (by decide) (fun _ _ _ => rfl)).mpr
    (.inr (by decide))

end Mftt
