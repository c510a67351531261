import Mftt.BootMemory

/-!
# The probers of the device tree

A node of a flattened device tree is a sequence of big-endian words: properties, fillers and child
nodes up to the word that ends it. `memory_fdt_prober`, `plic_fdt_prober` and `mmio_fdt_prober` go
through the body of a node with the same loop and differ in what they do with a property. The loop
has a counter for the depth, but it stops at the first word that ends any node, so a child node
ends it too early, and the properties of the child up to there are taken for those of the node.

An address `reg` and its size are put together from one or two words. The size of
`mmio_fdt_prober` lacks a shift of the upper word.
-/

namespace Mftt

abbrev FDT_BEGIN_NODE : Nat := 0x1
abbrev FDT_END_NODE : Nat := 0x2
abbrev FDT_PROP : Nat := 0x3
abbrev FDT_NOP : Nat := 0x4

/-- A device tree in memory and the parameters of a prober: the version, the address of the
strings and the cells of addresses and sizes. -/
structure FdtBlob where
  byte : Nat → UInt8
  version : Nat
  strings : Nat
  addrCells : Nat
  sizeCells : Nat
  addrRange : addrCells = 1 ∨ addrCells = 2
  sizeRange : sizeCells = 1 ∨ sizeCells = 2

/-- A property, by the addresses of its name and of its value. -/
structure FdtProperty where
  name : Nat
  value : Nat
  deriving DecidableEq

namespace FdtBlob

variable (b : FdtBlob)

/-! ## The loop -/

/-- `CPU_TO_FDT32` of the word at an address. -/
def word (p : Nat) : Nat :=
  (b.byte p).toNat <<< 24 ||| (b.byte (p + 1)).toNat <<< 16 ||| (b.byte (p + 2)).toNat <<< 8 |||
    (b.byte (p + 3)).toNat

/-- `strcmp` with a literal gives 0. -/
def isString (p : Nat) : List Char → Bool
  | [] => b.byte p = 0
  | ch :: rest => (b.byte p).toNat = ch.toNat && isString (p + 1) rest

def strlen : Nat → Nat → Except Fault Nat
  | 0, _ => .error .unfinished
  | turns + 1, p =>
    if b.byte p = 0 then .ok 0 else strlen turns (p + 1) >>= fun n => .ok (n + 1)

/-- `p_value` of the property whose tag is at `p`. -/
def valueAt (p : Nat) : Nat :=
  if b.version < 16 ∧ 8 ≤ b.word (p + 4) then roundUpWith 8 (p + 12) else p + 12

/-- The property whose tag is at `p`. -/
def propertyAt (p : Nat) : FdtProperty := ⟨b.strings + b.word (p + 8), b.valueAt p⟩

/-- The address behind the property whose tag is at `p`. -/
def afterProperty (p : Nat) : Nat := roundUpWith 4 (b.valueAt p + b.word (p + 4))

/-- The address behind a name of a length, whose tag is at `p`. -/
def afterName (p n : Nat) : Nat := roundUpWith 4 (p + 4 + n + 1)

section Loop

variable {σ : Type} (handle : σ → FdtProperty → Except Fault σ)

/-- The loop of a prober, with what it does for a property. -/
def proberLoop : Nat → Nat → Nat → σ → Except Fault (Nat × σ)
  | 0, _, _, _ => .error .unfinished
  | turns + 1, p, depth, s =>
    if b.word p ≠ FDT_END_NODE ∧ depth ≠ 0 then
      if b.word p = FDT_BEGIN_NODE then
        b.strlen turns (p + 4) >>= fun n => proberLoop turns (afterName p n) (depth + 1) s
      else if b.word p = FDT_END_NODE then proberLoop turns (p + 4) (depth - 1) s
      else if b.word p = FDT_NOP then proberLoop turns (p + 4) depth s
      else if b.word p = FDT_PROP then
        handle s (b.propertyAt p) >>= proberLoop turns (b.afterProperty p) depth
      else kpanic "Unknown FDT Tag Note: 0x%08x.\n"
    else .ok (p, s)

end Loop

/-- The number in one or two words, as the probers put it together. -/
def cells (p n shift : Nat) : Nat :=
  b.word (p + 4 * (n - 1)) ||| if 2 ≤ n then b.word (p + 4 * (n - 1) - 4) <<< shift else 0

/-- The address and the size in a value of `reg`, with the shift of the upper word of the size. -/
def reg (shift value : Nat) : Nat × Nat :=
  (b.cells value b.addrCells 32, b.cells (value + 4 * b.addrCells) b.sizeCells shift)

end FdtBlob

/-! ## The three probers -/

def REG : List Char := ['r', 'e', 'g']
def DEVICE_TYPE : List Char := ['d', 'e', 'v', 'i', 'c', 'e', '_', 't', 'y', 'p', 'e']
def MEMORY : List Char := ['m', 'e', 'm', 'o', 'r', 'y']
def INTERRUPTS : List Char := ['i', 'n', 't', 'e', 'r', 'r', 'u', 'p', 't', 's']
def INTERRUPT_PARENT : List Char :=
  ['i', 'n', 't', 'e', 'r', 'r', 'u', 'p', 't', '-', 'p', 'a', 'r', 'e', 'n', 't']

/-- A prober: what it sets first, what it does with a property once it can decode a value of
`reg`, what it asserts at its end, and the shift of its decoder. -/
structure ProberCode (σ : Type) where
  start : σ → σ
  handle : FdtBlob → (Nat → Nat × Nat) → σ → FdtProperty → Except Fault σ
  finish : σ → Except Fault Unit
  shift : Nat

/-- A call, with what the prober writes. -/
def ProberCode.run {σ : Type} (c : ProberCode σ) (b : FdtBlob) (turns begin : Nat) (s : σ) :
    Except Fault (Int × σ) :=
  b.proberLoop (c.handle b (b.reg c.shift)) turns begin 1 (c.start s) >>= fun (p, s) =>
    c.finish s >>= fun _ => .ok (((p : Int) - begin).bmod (2 ^ 32), s)

/-- What `memory_fdt_prober` writes. -/
structure MemoryProbe where
  discoverd : Bool
  memoryStart : Nat
  memoryEnd : Nat
  usableMemoryStart : Nat

/-- The bank of memory is not empty and holds the kernel. -/
def holdsKernel (kernBase kernEnd : Nat) (bank : Nat × Nat) : Prop :=
  bank.2 ≠ 0 ∧ kernEnd ≤ (bank.1 + bank.2) % 2 ^ 64 ∧ bank.1 ≤ kernBase

instance (kernBase kernEnd : Nat) (bank : Nat × Nat) :
    Decidable (holdsKernel kernBase kernEnd bank) := inferInstanceAs (Decidable (_ ∧ _ ∧ _))

/-- `memory_fdt_prober`. -/
def memoryFdtProber (kernBase kernEnd : Nat) : ProberCode MemoryProbe where
  start s := { s with discoverd := false }
  handle b decode s property :=
    if b.isString property.name DEVICE_TYPE then
      assert (b.isString property.value MEMORY = true)
        "Device type must be \"memory\" for memory." >>= fun _ => .ok s
    else if b.isString property.name REG then
      let bank := decode property.value
      if bank.2 ≠ 0 ∧ s.discoverd = false then
        let s := { s with memoryStart := bank.1, memoryEnd := (bank.1 + bank.2) % 2 ^ 64 }
        if holdsKernel kernBase kernEnd bank then
          .ok { s with usableMemoryStart := roundUpWith PG_SIZE kernEnd, discoverd := true }
        else .ok s
      else .ok s
    else .ok s
  finish s := assert (s.discoverd = true) "[FDT] Memory undetected."
  shift := 32

/-- What `plic_fdt_prober` writes. -/
structure PlicProbe where
  discoverd : Bool
  plicPa : Nat
  plicMemSize : Nat
  deriving DecidableEq

/-- `plic_fdt_prober`. -/
def plicFdtProber : ProberCode PlicProbe where
  start s := { s with discoverd := false }
  handle b decode s property :=
    if b.isString property.name REG then
      .ok ⟨true, (decode property.value).1, (decode property.value).2⟩
    else .ok s
  finish _ := .ok ()
  shift := 32

/-- The variables of `mmio_fdt_prober`, which it stores in `virtio_mmio_info`. -/
structure MmioProbe where
  discoverd : Nat
  baseAddr : Nat
  memSize : Nat
  interrupts : Nat
  interruptParent : Nat

/-- The loop of `mmio_fdt_prober` for one property. -/
def mmioTurn (b : FdtBlob) (decode : Nat → Nat × Nat) (s : MmioProbe) (property : FdtProperty) :
    MmioProbe :=
  if b.isString property.name REG then
    let s := { s with memSize := (decode property.value).2 }
    if (decode property.value).1 ≠ 0 then
      { s with baseAddr := (decode property.value).1, discoverd := s.discoverd + 1 }
    else s
  else if b.isString property.name INTERRUPTS then
    let s := { s with interrupts := b.word property.value % 256 }
    if s.interrupts ≠ 0 then { s with discoverd := s.discoverd + 1 } else s
  else if b.isString property.name INTERRUPT_PARENT then
    let s := { s with interruptParent := b.word property.value % 256 }
    if s.interruptParent ≠ 0 then { s with discoverd := s.discoverd + 1 } else s
  else s

/-- `mmio_fdt_prober`. -/
def mmioFdtProber : ProberCode MmioProbe where
  start s := { s with discoverd := 0 }
  handle b decode s property := .ok (mmioTurn b decode s property)
  finish s := assert (s.discoverd = 3) "Insufficient information provided for virtio mmio."
  shift := 0

/-! ## What the format says -/

namespace FdtBlob

variable (b : FdtBlob)

/-- The number in some bytes, the first one the most significant. -/
def bigEndian (p : Nat) : Nat → Nat
  | 0 => 0
  | n + 1 => 256 * bigEndian p n + (b.byte (p + n)).toNat

/-- The address and the size in a value of `reg`. -/
def standard (value : Nat) : Nat × Nat :=
  (b.bigEndian value (4 * b.addrCells), b.bigEndian (value + 4 * b.addrCells) (4 * b.sizeCells))

/-- A string of a length. -/
def HasLength (p n : Nat) : Prop := (∀ k < n, b.byte (p + k) ≠ 0) ∧ b.byte (p + n) = 0

/-- The body of a node from an address to another one, with the properties of the node itself and
whether it has child nodes. -/
inductive Body : Nat → List FdtProperty → Bool → Nat → Prop where
  | done (p : Nat) : Body p [] false p
  | nop {p q : Nat} {own : List FdtProperty} {nested : Bool} (tag : b.word p = FDT_NOP)
      (rest : Body (p + 4) own nested q) : Body p own nested q
  | property {p q : Nat} {own : List FdtProperty} {nested : Bool} (tag : b.word p = FDT_PROP)
      (rest : Body (b.afterProperty p) own nested q) :
      Body p (b.propertyAt p :: own) nested q
  | node {p q r n : Nat} {own inner : List FdtProperty} {nested deeper : Bool}
      (tag : b.word p = FDT_BEGIN_NODE) (name : b.HasLength (p + 4) n)
      (child : Body (afterName p n) inner deeper r) (childEnds : b.word r = FDT_END_NODE)
      (rest : Body (r + 4) own nested q) : Body p own true q

end FdtBlob

/-- A call returns the offset of the end of the node, and writes what the properties of the node
itself give with the decoding of the format. -/
def ProberCode.Meets {σ : Type} (c : ProberCode σ) (b : FdtBlob) (begin q : Nat)
    (own : List FdtProperty) (s : σ) : Prop :=
  ∃ turns s', c.run b turns begin s = .ok ((q : Int) - begin, s') ∧
    own.foldlM (c.handle b b.standard) (c.start s) = .ok s'

namespace FdtBlob

variable {b : FdtBlob} {p q : Nat} {own : List FdtProperty} {nested : Bool}

/-! ## Words and cells -/

theorem shift_or_byte (x : Nat) (y : UInt8) (j : Nat) :
    x <<< (8 + j) ||| y.toNat <<< j = (256 * x + y.toNat) <<< j := by
  have small : y.toNat < 2 ^ 8 := y.toNat_lt
  rw [Nat.shiftLeft_add, ← Nat.shiftLeft_or_distrib, ← Nat.shiftLeft_add_eq_or_of_lt small,
    Nat.shiftLeft_eq x, Nat.mul_comm x]

theorem word_eq (b : FdtBlob) (p : Nat) : b.word p = b.bigEndian p 4 := by
  have first := shift_or_byte (b.byte p).toNat (b.byte (p + 1)) 16
  have second := shift_or_byte (256 * (b.byte p).toNat + (b.byte (p + 1)).toNat) (b.byte (p + 2)) 8
  have third := shift_or_byte (256 * (256 * (b.byte p).toNat + (b.byte (p + 1)).toNat) +
    (b.byte (p + 2)).toNat) (b.byte (p + 3)) 0
  simp only [Nat.shiftLeft_zero] at third
  rw [word, first, second, third]
  simp [bigEndian]

theorem big_endian_lt (b : FdtBlob) (p n : Nat) : b.bigEndian p n < 256 ^ n := by
  induction n with
  | zero => exact Nat.one_pos
  | succ n ih =>
    have byte : (b.byte (p + n)).toNat < 256 := (b.byte (p + n)).toNat_lt
    rw [bigEndian]
    omega

theorem word_lt (b : FdtBlob) (p : Nat) : b.word p < 2 ^ 32 := by
  rw [word_eq]
  exact big_endian_lt b p 4

theorem big_endian_two (b : FdtBlob) (p : Nat) :
    b.bigEndian p 8 = b.word p <<< 32 + b.word (p + 4) := by
  simp only [word_eq, bigEndian, Nat.add_assoc, Nat.reduceAdd]
  omega

/-- Two words with the shift are the number of the format. -/
theorem cells_eq {n : Nat} (range : n = 1 ∨ n = 2) :
    b.cells p n 32 = b.bigEndian p (4 * n) := by
  rcases range with rfl | rfl
  · exact (Nat.or_zero _).trans (word_eq b p)
  · rw [cells, big_endian_two, Nat.or_comm, Nat.shiftLeft_add_eq_or_of_lt (word_lt b (p + 4))]
    rfl

/-- Without the shift the upper word has to be zero. -/
theorem cells_unshifted_iff {n : Nat} (range : n = 1 ∨ n = 2) :
    b.cells p n 0 = b.bigEndian p (4 * n) ↔ n = 1 ∨ b.word p = 0 := by
  rcases range with rfl | rfl
  · exact iff_of_true ((Nat.or_zero _).trans (word_eq b p)) (.inl rfl)
  · have low := word_lt b (p + 4)
    rw [big_endian_two, or_iff_right (by decide)]
    have sum : b.cells p 2 0 = b.word (p + 4) ||| b.word p := rfl
    rw [sum]
    constructor
    · have small := Nat.or_lt_two_pow low (word_lt b p)
      omega
    · intro zero
      rw [zero]
      simp

theorem reg_eq_standard (b : FdtBlob) : b.reg 32 = b.standard := by
  funext value
  rw [reg, standard, cells_eq b.addrRange, cells_eq b.sizeRange]

/-! ## The loop on a body -/

theorem strlen_eq {turns n m : Nat} (length : b.HasLength p n) (ok : b.strlen turns p = .ok m) :
    m = n := by
  induction turns generalizing p n m with
  | zero => cases ok
  | succ turns ih =>
    rw [strlen] at ok
    cases n with
    | zero =>
      have stops : b.byte p = 0 := length.2
      rw [if_pos stops] at ok
      cases ok
      rfl
    | succ n =>
      have goes : b.byte p ≠ 0 := length.1 0 (Nat.succ_pos n)
      rw [if_neg goes] at ok
      obtain ⟨m', rest, ok⟩ := bind_eq_ok.mp ok
      cases ok
      refine congrArg (· + 1) (ih ⟨fun k less => ?_, ?_⟩ rest)
      · rw [Nat.add_assoc, Nat.add_comm 1]
        exact length.1 (k + 1) (Nat.succ_lt_succ less)
      · rw [Nat.add_assoc, Nat.add_comm 1]
        exact length.2

theorem le_round_up_with {s : Nat} (positive : 0 < s) (a : Nat) : a ≤ roundUpWith s a := by
  have parts := Nat.div_add_mod (a + s - 1) s
  have below := Nat.mod_lt (a + s - 1) positive
  rw [roundUpWith, Nat.mul_comm]
  omega

theorem le_after_property (b : FdtBlob) (p : Nat) : p + 12 ≤ b.afterProperty p := by
  have aligned := le_round_up_with (by decide : 0 < 4) (b.valueAt p + b.word (p + 4))
  have value : p + 12 ≤ b.valueAt p := by
    rw [valueAt]
    split
    · exact le_round_up_with (by decide) (p + 12)
    · exact Nat.le_refl _
  rw [afterProperty]
  omega

theorem le_after_name (p n : Nat) : p + 4 ≤ afterName p n := by
  have aligned := le_round_up_with (by decide : 0 < 4) (p + 4 + n + 1)
  rw [afterName]
  omega

theorem Body.le (body : b.Body p own nested q) : p ≤ q := by
  induction body with
  | done => exact Nat.le_refl _
  | nop _ _ ih => omega
  | @property p q own nested tag rest ih =>
    have behind := le_after_property b p
    omega
  | @node p q r n own inner nested deeper tag name child ends rest ihChild ih =>
    have behind := le_after_name p n
    omega

section Loops

variable {σ : Type} {handle : σ → FdtProperty → Except Fault σ} {turns depth : Nat} {s : σ}

theorem loop_at_nop (tag : b.word p = FDT_NOP) (deep : depth ≠ 0) :
    b.proberLoop handle (turns + 1) p depth s = b.proberLoop handle turns (p + 4) depth s := by
  simp [proberLoop, tag, deep, FDT_BEGIN_NODE, FDT_END_NODE, FDT_NOP]

theorem loop_at_property (tag : b.word p = FDT_PROP) (deep : depth ≠ 0) :
    b.proberLoop handle (turns + 1) p depth s =
      handle s (b.propertyAt p) >>= b.proberLoop handle turns (b.afterProperty p) depth := by
  simp [proberLoop, tag, deep, FDT_BEGIN_NODE, FDT_PROP, FDT_NOP]

theorem loop_at_node (tag : b.word p = FDT_BEGIN_NODE) (deep : depth ≠ 0) :
    b.proberLoop handle (turns + 1) p depth s = b.strlen turns (p + 4) >>= fun n =>
      b.proberLoop handle turns (afterName p n) (depth + 1) s := by
  simp [proberLoop, tag, deep, FDT_BEGIN_NODE, FDT_END_NODE]

/-- Where the loop stops: at the end of a node without children, having handled its properties,
and before it if there is a child.

Proof: induction on the body; in a child the loop does not get beyond the end of the child. -/
theorem loop_stops (body : b.Body p own nested q) (ends : b.word q = FDT_END_NODE)
    {p' : Nat} {s' : σ} (deep : depth ≠ 0)
    (loop : b.proberLoop handle turns p depth s = .ok (p', s')) :
    p ≤ p' ∧ p' ≤ q ∧ (nested = true → p' < q) ∧
      (nested = false → p' = q ∧ own.foldlM handle s = .ok s') := by
  induction body generalizing turns depth s with
  | done p =>
    cases turns with
    | zero => cases loop
    | succ turns =>
      rw [proberLoop, if_neg (fun going => going.1 ends)] at loop
      cases loop
      exact ⟨Nat.le_refl _, Nat.le_refl _, nofun, fun _ => ⟨rfl, rfl⟩⟩
  | nop tag rest ih =>
    cases turns with
    | zero => cases loop
    | succ turns =>
      rw [loop_at_nop tag deep] at loop
      obtain ⟨beyond, others⟩ := ih ends deep loop
      exact ⟨by omega, others⟩
  | @property p q own nested tag rest ih =>
    cases turns with
    | zero => cases loop
    | succ turns =>
      rw [loop_at_property tag deep] at loop
      obtain ⟨next, handles, loop⟩ := bind_eq_ok.mp loop
      rw [List.foldlM_cons, handles]
      obtain ⟨beyond, others⟩ := ih ends deep loop
      have behind := le_after_property b p
      exact ⟨by omega, others⟩
  | @node p q r n own inner nested deeper tag name child childEnds rest ihChild ih =>
    cases turns with
    | zero => cases loop
    | succ turns =>
      rw [loop_at_node tag deep] at loop
      obtain ⟨m, length, loop⟩ := bind_eq_ok.mp loop
      rw [strlen_eq name length] at loop
      obtain ⟨beyond, inChild, -⟩ := ihChild childEnds (Nat.succ_ne_zero _) loop
      have entered := le_after_name p n
      have behind := rest.le
      exact ⟨by omega, by omega, fun _ => by omega, nofun⟩

/-- Without children the loop returns if no property is refused. -/
theorem loop_returns (body : b.Body p own nested q) (alone : nested = false)
    (ends : b.word q = FDT_END_NODE) {s' : σ} (deep : depth ≠ 0)
    (folds : own.foldlM handle s = .ok s') :
    ∃ turns, b.proberLoop handle turns p depth s = .ok (q, s') := by
  induction body generalizing s with
  | done p =>
    cases folds
    exact ⟨1, if_neg fun going => going.1 ends⟩
  | nop tag rest ih =>
    obtain ⟨turns, loop⟩ := ih alone ends folds
    exact ⟨turns + 1, (loop_at_nop tag deep).trans loop⟩
  | property tag rest ih =>
    obtain ⟨next, handles, folds⟩ := bind_eq_ok.mp folds
    obtain ⟨turns, loop⟩ := ih alone ends folds
    refine ⟨turns + 1, ?_⟩
    rw [loop_at_property tag deep, handles]
    exact loop
  | node => cases alone

end Loops

end FdtBlob

section Probers

variable {σ : Type} {c : ProberCode σ} {b : FdtBlob} {begin q : Nat} {own : List FdtProperty}
  {nested : Bool}

/-- A prober meets the format exactly if the node has no children, its length fits into an `int`,
and the properties with the decoder of the prober give what they give with that of the format. -/
theorem ProberCode.meets_iff (body : b.Body begin own nested q) (ends : b.word q = FDT_END_NODE)
    (s : σ) : c.Meets b begin q own s ↔ nested = false ∧ q - begin < 2 ^ 31 ∧
      ∃ s', own.foldlM (c.handle b (b.reg c.shift)) (c.start s) = .ok s' ∧
        own.foldlM (c.handle b b.standard) (c.start s) = .ok s' ∧ c.finish s' = .ok () := by
  have forwards := body.le
  constructor
  · rintro ⟨turns, s', runs, expected⟩
    obtain ⟨⟨p, s₁⟩, loop, runs⟩ := bind_eq_ok.mp runs
    obtain ⟨_, finishes, runs⟩ := bind_eq_ok.mp runs
    obtain ⟨offset, rfl⟩ := Prod.mk.inj (Except.ok.inj runs)
    obtain ⟨forth, within, early, whole⟩ := FdtBlob.loop_stops body ends Nat.one_ne_zero loop
    have most : ((p : Int) - begin).bmod (2 ^ 32) < 2 ^ 31 := Int.bmod_lt (by decide)
    have small : q - begin < 2 ^ 31 := by omega
    cases nested with
    | true =>
      have before := early rfl
      rw [Int.bmod_eq_of_le (by omega) (by omega)] at offset
      omega
    | false => exact ⟨rfl, small, s₁, (whole rfl).2, expected, finishes⟩
  · rintro ⟨alone, small, s', folds, expected, finishes⟩
    obtain ⟨turns, loop⟩ := FdtBlob.loop_returns body alone ends Nat.one_ne_zero folds
    refine ⟨turns, s', ?_, expected⟩
    rw [ProberCode.run, loop, bind_ok]
    dsimp only
    rw [finishes, bind_ok, Int.bmod_eq_of_le (by omega) (by omega)]

/-- The properties of a node that describe a bank of memory with the kernel. -/
def MemoryNode (b : FdtBlob) (kernBase kernEnd : Nat) (own : List FdtProperty) : Prop :=
  (∀ x ∈ own, b.isString x.name DEVICE_TYPE = true → b.isString x.value MEMORY = true) ∧
    ∃ x ∈ own, b.isString x.name REG = true ∧ holdsKernel kernBase kernEnd (b.standard x.value)

theorem not_device_type {x : Nat} (isReg : b.isString x REG = true) :
    b.isString x DEVICE_TYPE = false := by
  simp only [FdtBlob.isString, REG, DEVICE_TYPE, Bool.and_eq_true, decide_eq_true_eq] at isReg ⊢
  simp [isReg.1]

/-- A property other than the device type makes the bank known if it describes one. -/
theorem memory_turn {kernBase kernEnd : Nat} (s : MemoryProbe) {x : FdtProperty}
    (other : ¬ b.isString x.name DEVICE_TYPE = true) :
    ∃ s', (memoryFdtProber kernBase kernEnd).handle b b.standard s x = .ok s' ∧
      (s'.discoverd = true ↔ s.discoverd = true ∨ (b.isString x.name REG = true ∧
        holdsKernel kernBase kernEnd (b.standard x.value))) := by
  simp only [memoryFdtProber, if_neg other]
  by_cases isReg : b.isString x.name REG = true
  · simp only [isReg, true_and]
    by_cases looks : (b.standard x.value).2 ≠ 0 ∧ s.discoverd = false
    · rw [if_pos looks]
      by_cases bank : holdsKernel kernBase kernEnd (b.standard x.value)
      · rw [if_pos bank]
        exact ⟨_, rfl, iff_of_true rfl (.inr bank)⟩
      · rw [if_neg bank]
        exact ⟨_, rfl, (or_iff_left bank).symm⟩
    · rw [if_neg looks]
      refine ⟨s, rfl, ⟨.inl, ?_⟩⟩
      rintro (found | bank)
      · exact found
      · exact eq_true_of_ne_false fun unknown => looks ⟨bank.1, unknown⟩
  · rw [if_neg isReg]
    exact ⟨s, rfl, (or_iff_left fun both => isReg both.1).symm⟩

/-- The fold of `memory_fdt_prober` over the properties ends well exactly if the device type is
right and the bank has been found before or is found. -/
theorem memory_fold_iff (b : FdtBlob) (own : List FdtProperty) (kernBase kernEnd : Nat)
    (s : MemoryProbe) :
    (∃ s', own.foldlM ((memoryFdtProber kernBase kernEnd).handle b b.standard) s = .ok s' ∧
      (memoryFdtProber kernBase kernEnd).finish s' = .ok ()) ↔
    (∀ x ∈ own, b.isString x.name DEVICE_TYPE = true → b.isString x.value MEMORY = true) ∧
      (s.discoverd = true ∨ ∃ x ∈ own, b.isString x.name REG = true ∧
        holdsKernel kernBase kernEnd (b.standard x.value)) := by
  induction own generalizing s with
  | nil =>
    have finish : (memoryFdtProber kernBase kernEnd).finish s = .ok () ↔ s.discoverd = true :=
      assert_eq_ok
    simp [finish]
  | cons x rest ih =>
    rw [List.foldlM_cons]
    by_cases type : b.isString x.name DEVICE_TYPE = true
    · have notReg : ¬ b.isString x.name REG = true := fun isReg => by
        rw [not_device_type isReg] at type
        cases type
      have turn : (memoryFdtProber kernBase kernEnd).handle b b.standard s x =
          assert (b.isString x.value MEMORY = true)
            "Device type must be \"memory\" for memory." >>= fun _ => .ok s := if_pos type
      rw [turn]
      by_cases value : b.isString x.value MEMORY = true
      · rw [assert_true _ value, bind_ok, bind_ok, ih]
        simp [value, notReg]
      · rw [assert]
        simp [type, value]
    · obtain ⟨s', turn, found⟩ := memory_turn s type
      rw [turn, bind_ok, ih, found, or_assoc]
      simp [type]

/-! ## The condition of `mmio_fdt_prober` -/

/-- The properties that count. -/
def mmioCounts (b : FdtBlob) (x : FdtProperty) : Bool :=
  if b.isString x.name REG then (b.standard x.value).1 ≠ 0
  else if b.isString x.name INTERRUPTS then b.word x.value % 256 ≠ 0
  else if b.isString x.name INTERRUPT_PARENT then b.word x.value % 256 ≠ 0
  else false

/-- The properties of a node that `mmio_fdt_prober` understands: three of them count, and the last
size has no upper word. -/
def MmioNode (b : FdtBlob) (own : List FdtProperty) : Prop :=
  own.countP (mmioCounts b) = 3 ∧
    ∀ x ∈ own.reverse.find? (fun x => b.isString x.name REG),
      b.sizeCells = 1 ∨ b.word (x.value + 4 * b.addrCells) = 0

theorem mmio_fold (decode : Nat → Nat × Nat) (s : MmioProbe) :
    own.foldlM (mmioFdtProber.handle b decode) s = .ok (own.foldl (mmioTurn b decode) s) := by
  induction own generalizing s with
  | nil => rfl
  | cons x rest ih =>
    exact ih _

theorem mmio_discoverd (s : MmioProbe) :
    (own.foldl (mmioTurn b b.standard) s).discoverd =
      s.discoverd + own.countP (mmioCounts b) := by
  induction own generalizing s with
  | nil => rfl
  | cons x rest ih =>
    have turn : (mmioTurn b b.standard s x).discoverd =
        s.discoverd + if mmioCounts b x = true then 1 else 0 := by
      simp only [mmioTurn, mmioCounts]
      split
      · split <;> simp_all
      · split
        · split <;> simp_all
        · split
          · split <;> simp_all
          · simp
    rw [List.foldl_cons, ih, List.countP_cons]
    omega

/-- Decoders that agree on addresses give the same variables but for the size. -/
theorem mmio_turn_size {decode decode' : Nat → Nat × Nat}
    (same : ∀ value, (decode value).1 = (decode' value).1) (s : MmioProbe) (size : Nat)
    (x : FdtProperty) :
    mmioTurn b decode { s with memSize := size } x = { mmioTurn b decode' s x with
      memSize := if b.isString x.name REG then (decode x.value).2 else size } := by
  simp only [mmioTurn, same]
  split
  · split <;> rfl
  · split
    · split <;> rfl
    · split
      · split <;> rfl
      · rfl

/-- The size of the last `reg`, if there is one. -/
def lastSize (b : FdtBlob) (decode : Nat → Nat × Nat) (own : List FdtProperty) (size : Nat) : Nat :=
  ((own.reverse.find? fun x => b.isString x.name REG).map fun x => (decode x.value).2).getD size

theorem mmio_fold_size {decode decode' : Nat → Nat × Nat}
    (same : ∀ value, (decode value).1 = (decode' value).1) (s : MmioProbe) (size : Nat) :
    own.foldl (mmioTurn b decode) { s with memSize := size } =
      { own.foldl (mmioTurn b decode') s with memSize := lastSize b decode own size } := by
  induction own generalizing s size with
  | nil => rfl
  | cons x rest ih =>
    rw [List.foldl_cons, mmio_turn_size same, ih, lastSize, lastSize,
      List.reverse_cons, List.find?_append]
    cases rest.reverse.find? fun x => b.isString x.name REG with
    | some last => rfl
    | none =>
      by_cases isReg : b.isString x.name REG = true
      · simp [isReg]
      · simp [isReg]

/-- With its own decoder the prober gets what the format says exactly if the last size has no
upper word. -/
theorem mmio_folds_equal_iff (s : MmioProbe) :
    own.foldl (mmioTurn b (b.reg 0)) s = own.foldl (mmioTurn b b.standard) s ↔
      ∀ x ∈ own.reverse.find? (fun x => b.isString x.name REG),
        b.sizeCells = 1 ∨ b.word (x.value + 4 * b.addrCells) = 0 := by
  have code : own.foldl (mmioTurn b (b.reg 0)) s = { own.foldl (mmioTurn b b.standard) s with
      memSize := lastSize b (b.reg 0) own s.memSize } :=
    mmio_fold_size (fun _ => FdtBlob.cells_eq b.addrRange) s s.memSize
  have format : own.foldl (mmioTurn b b.standard) s = { own.foldl (mmioTurn b b.standard) s with
      memSize := lastSize b b.standard own s.memSize } :=
    mmio_fold_size (fun _ => rfl) s s.memSize
  have sizes : own.foldl (mmioTurn b (b.reg 0)) s = own.foldl (mmioTurn b b.standard) s ↔
      lastSize b (b.reg 0) own s.memSize = lastSize b b.standard own s.memSize := by
    constructor
    · intro equal
      rw [code] at equal
      exact (congrArg MmioProbe.memSize equal).trans (congrArg MmioProbe.memSize format)
    · intro equal
      rw [code, equal, ← format]
  rw [sizes, lastSize, lastSize]
  cases own.reverse.find? fun x => b.isString x.name REG with
  | none => simp
  | some last =>
    simp only [Option.mem_def, Option.some.injEq, forall_eq']
    exact FdtBlob.cells_unshifted_iff b.sizeRange

theorem plic_fold (b : FdtBlob) (own : List FdtProperty) (s : PlicProbe) :
    ∃ s', own.foldlM (plicFdtProber.handle b b.standard) s = .ok s' := by
  induction own generalizing s with
  | nil => exact ⟨s, rfl⟩
  | cons x rest ih =>
    rw [List.foldlM_cons]
    by_cases isReg : b.isString x.name REG = true
    · simp only [plicFdtProber, if_pos isReg]
      exact ih _
    · simp only [plicFdtProber, if_neg isReg]
      exact ih s

/-- The three probers find the end of a node body, and take and decode the properties of the node
itself, exactly if it has no child nodes, its length fits into an `int`, and the properties are
those that the prober asserts; and for `mmio_fdt_prober`, the size has no upper word. -/
theorem probers_find_end_iff (body : b.Body begin own nested q) (ends : b.word q = FDT_END_NODE) :
    (∀ kernBase kernEnd s, (memoryFdtProber kernBase kernEnd).Meets b begin q own s ↔
      nested = false ∧ q - begin < 2 ^ 31 ∧ MemoryNode b kernBase kernEnd own) ∧
    (∀ s, plicFdtProber.Meets b begin q own s ↔ nested = false ∧ q - begin < 2 ^ 31) ∧
    ∀ s, mmioFdtProber.Meets b begin q own s ↔
      nested = false ∧ q - begin < 2 ^ 31 ∧ MmioNode b own := by
  refine ⟨fun kernBase kernEnd s => ?_, fun s => ?_, fun s => ?_⟩
  · have unknown : ¬ ((memoryFdtProber kernBase kernEnd).start s).discoverd = true := nofun
    have shift : (memoryFdtProber kernBase kernEnd).shift = 32 := rfl
    have described := memory_fold_iff b own kernBase kernEnd
      ((memoryFdtProber kernBase kernEnd).start s)
    rw [or_iff_right unknown] at described
    rw [ProberCode.meets_iff body ends, MemoryNode, ← described, shift, FdtBlob.reg_eq_standard]
    simp only [and_self_left]
  · obtain ⟨s', folds⟩ := plic_fold b own (plicFdtProber.start s)
    have shift : plicFdtProber.shift = 32 := rfl
    rw [ProberCode.meets_iff body ends, shift, FdtBlob.reg_eq_standard, folds]
    exact and_congr_right fun _ => and_iff_left ⟨s', rfl, rfl, rfl⟩
  · have shift : mmioFdtProber.shift = 0 := rfl
    have three : mmioFdtProber.finish (own.foldl (mmioTurn b b.standard) (mmioFdtProber.start s)) =
        .ok () ↔ own.countP (mmioCounts b) = 3 := by
      rw [mmioFdtProber, assert_eq_ok, mmio_discoverd, Nat.zero_add]
    rw [ProberCode.meets_iff body ends, MmioNode, ← mmio_folds_equal_iff (mmioFdtProber.start s),
      ← three, shift]
    simp only [mmio_fold, Except.ok.injEq]
    refine and_congr_right fun _ => and_congr_right fun _ => ⟨?_, ?_⟩
    · rintro ⟨s', code, format, finish⟩
      exact ⟨format ▸ finish, code.trans format.symm⟩
    · rintro ⟨finish, equal⟩
      exact ⟨_, equal, rfl, finish⟩

end Probers

/-- A device tree of some bytes. -/
def sampleBlob (bytes : List UInt8) (strings : Nat) : FdtBlob where
  byte p := bytes.getD p 0
  version := 17
  strings := strings
  addrCells := 1
  sizeCells := 2
  addrRange := .inl rfl
  sizeRange := .inr rfl

/-- The property `reg`, with address 0xC000000 and size 0x600000000. -/
def regBytes : List UInt8 :=
  [0, 0, 0, 3, 0, 0, 0, 12, 0, 0, 0, 0, 0x0C, 0, 0, 0, 0, 0, 0, 6, 0, 0, 0, 0]

/-- A node with one property, and the strings. -/
def plainNode : FdtBlob := sampleBlob (regBytes ++ [0, 0, 0, 2, 0x72, 0x65, 0x67, 0]) 28

theorem plain_node_found : plainNode.Body 0 [⟨28, 12⟩] false 24 ∧
    plicFdtProber.Meets plainNode 0 24 [⟨28, 12⟩] ⟨false, 0, 0⟩ := by
  have body : plainNode.Body 0 [⟨28, 12⟩] false 24 := .property (by decide) (.done 24)
  exact ⟨body, ((probers_find_end_iff body (by decide)).2.1 _).mpr ⟨rfl, by decide⟩⟩

/-- A node with a child `a` that has the property. -/
def nestedNode : FdtBlob :=
  sampleBlob ([0, 0, 0, 1, 0x61, 0, 0, 0] ++ regBytes ++
    [0, 0, 0, 2, 0, 0, 0, 2, 0x72, 0x65, 0x67, 0]) 40

/-- The prober returns the end of the child, and takes its address; and the size in the property
is not 6. -/
theorem nested_node_cut : nestedNode.Body 0 [] true 36 ∧ nestedNode.word 36 = FDT_END_NODE ∧
    (plicFdtProber.run nestedNode 8 0 ⟨false, 0, 0⟩).toOption =
      some (32, ⟨true, 0xC000000, 0x600000000⟩) ∧
    plainNode.reg mmioFdtProber.shift 12 = (0xC000000, 6) ∧
    plainNode.standard 12 = (0xC000000, 0x600000000) := by
  refine ⟨?_, by decide, by decide +kernel, by decide, by decide⟩
  exact .node (by decide) (n := 1) ⟨by decide, by decide⟩ (.property (by decide) (.done 32))
    (by decide) (.done 36)

end Mftt
