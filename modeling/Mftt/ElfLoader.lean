import Mftt.ByteMemory
import Mftt.CopyOnWrite
import Mftt.PowerOfTwo
import Mftt.Slices

/-!
# The ELF loader

`elf_load_to_process` of `lib/elf.c`. What it reads comes from the function that it is given,
the reader; a read that ends early leaves the rest of its target as it was. Page tables are words
of frames and the pages of a process are bytes: the loader writes to the latter only, and a write
outside the block that `page_alloc` returned for a segment is the outcome `outOfBounds`.
-/

namespace Mftt

open ByteMemory Slices

/-- `elf_buffer_reader`: the bytes stored for an offset and a size. -/
abbrev ElfReader := Nat → Nat → List (BitVec 8)

abbrev EHDR_SIZE : Nat := 64
abbrev PHDR_SIZE : Nat := 56
abbrev SHDR_SIZE : Nat := 64
abbrev PT_LOAD : Nat := 1

/-- The attributes of the pages of a process. -/
abbrev USER_PAGES : Nat := PAGE_TYPE_INUSE ||| PAGE_TYPE_USER

/-- `Elf64_Phdr`, without what the loader does not read. -/
structure Phdr where
  type : Nat
  flags : Nat
  offset : Nat
  vaddr : Nat
  filesz : Nat
  memsz : Nat
  deriving DecidableEq, Repr

/-- The fields of a program header in memory. -/
def Phdr.ofBytes (m : Bytes) : Phdr where
  type := load m 0 4
  flags := load m 4 4
  offset := load m 8 8
  vaddr := load m 16 8
  filesz := load m 32 8
  memsz := load m 40 8

namespace Elf

/-- The fields of `Elf64_Ehdr`. -/
def entry (m : Bytes) : Nat := load m 24 8
def phoff (m : Bytes) : Nat := load m 32 8
def phentsize (m : Bytes) : Nat := load m 54 2
def phnum (m : Bytes) : Nat := load m 56 2
def shentsize (m : Bytes) : Nat := load m 58 2

/-- `elf_check_header`: the magic number, 64 bits, little endian, version 1, RISC-V, executable. -/
def checkHeader (m : Bytes) : Bool :=
  m 0 == 0x7F#8 && m 1 == 0x45#8 && m 2 == 0x4C#8 && m 3 == 0x46#8 &&
    m 4 == 2#8 && m 5 == 1#8 && m 6 == 1#8 && load m 18 2 == 243 && load m 16 2 == 2

/-- What the loader accepts: the header of an executable RISC-V file of 64 bits, least significant
byte first, whose tables have entries of the sizes that it knows. -/
structure Executable (m : Bytes) : Prop where
  magic : m 0 = 0x7F#8 ∧ m 1 = 0x45#8 ∧ m 2 = 0x4C#8 ∧ m 3 = 0x46#8
  format : m 4 = 2#8 ∧ m 5 = 1#8 ∧ m 6 = 1#8
  kind : load m 18 2 = 243 ∧ load m 16 2 = 2
  entries : phentsize m = PHDR_SIZE ∧ shentsize m = SHDR_SIZE

theorem executable_iff {m : Bytes} :
    Executable m ↔ checkHeader m = true ∧ phentsize m = PHDR_SIZE ∧ shentsize m = SHDR_SIZE := by
  simp only [checkHeader, Bool.and_eq_true, beq_iff_eq]
  constructor
  · rintro ⟨⟨m₀, m₁, m₂, m₃⟩, ⟨m₄, m₅, m₆⟩, ⟨machine, type⟩, entries⟩
    exact ⟨⟨⟨⟨⟨⟨⟨⟨⟨m₀, m₁⟩, m₂⟩, m₃⟩, m₄⟩, m₅⟩, m₆⟩, machine⟩, type⟩, entries⟩
  · rintro ⟨⟨⟨⟨⟨⟨⟨⟨⟨m₀, m₁⟩, m₂⟩, m₃⟩, m₄⟩, m₅⟩, m₆⟩, machine⟩, type⟩, entries⟩
    exact ⟨⟨m₀, m₁, m₂, m₃⟩, ⟨m₄, m₅, m₆⟩, ⟨machine, type⟩, entries⟩

/-- What the loader makes of a process: its page tables, the bytes of its pages, its image and
its program counter. -/
structure LoadState (σ : Type) where
  machine : Machine σ
  memory : Bytes
  imageStart : Nat
  progBreak : Nat
  progSize : Nat
  userPc : Nat

/-- A write of `n` bytes to a block of pages. -/
def inside (block size a n : Nat) : Except Fault Unit :=
  if n = 0 then .ok ()
  else if block = 0 then .error .nullPointer
  else if block ≤ a ∧ a + n ≤ block + size then .ok ()
  else .error .outOfBounds

/-- The type of the pages of a segment. -/
def pgType (flags : Nat) : Nat :=
  (if flags.testBit 2 then 1 else 0) + (if flags.testBit 1 then 2 else 0) +
    if flags.testBit 0 then 4 else 0

/-- The types that the loader supports: RWX, RW, X, R and RX. -/
def Supported (type : Nat) : Prop := type = 7 ∨ type = 3 ∨ type = 4 ∨ type = 1 ∨ type = 5

instance (type : Nat) : Decidable (Supported type) :=
  inferInstanceAs (Decidable (_ ∨ _ ∨ _ ∨ _ ∨ _))

/-- The number of pages that are requested for a segment. -/
def pageCount (ph : Phdr) : Nat := pgRoundUp ph.memsz / PG_SIZE

/-- The bytes of the block that `page_alloc` gives for a number of pages. -/
def blockSize (pages : Nat) : Nat := 2 ^ blockOrder pages * PG_SIZE

section Load

variable {σ : Type} (A : PageAllocator σ) (reader : ElfReader)

/-- The bytes of a segment in its block: those of the file, zeros before them in the first page
and zeros after them. -/
def fillSegment (m : Bytes) (pa : Nat) (ph : Phdr) : Except Fault Bytes :=
  let size := blockSize (pageCount ph)
  let offset := ph.vaddr % PG_SIZE
  let data := (reader ph.offset ph.filesz).take ph.filesz
  inside pa size (pa + offset) data.length >>= fun _ =>
    let m := overwrite m (pa + offset) data
    inside pa size pa offset >>= fun _ =>
      let m := fill m pa offset 0#8
      if ph.filesz = ph.memsz then .ok m
      else if ph.memsz < ph.filesz then kpanic "[ELF] Prog header filesz larger than memsz."
      else
        inside pa size (pa + offset + ph.filesz) (ph.memsz - ph.filesz) >>= fun _ =>
          .ok (fill m (pa + offset + ph.filesz) (ph.memsz - ph.filesz) 0#8)

/-- The body of the loop for a header of type `PT_LOAD`. -/
def loadSegment (pageDir : Nat) (s : LoadState σ) (ph : Phdr) : Except Fault (LoadState σ) :=
  let stop := (ph.vaddr + ph.memsz) % 2 ^ 64
  A.pageAlloc s.machine.pages (pageCount ph) USER_PAGES >>= fun (pa, pages) =>
    fillSegment reader s.memory pa ph >>= fun memory =>
      assert (Supported (pgType ph.flags)) "Elf Program memory type unsupported." >>= fun _ =>
        -- the result of `map_pages` is not looked at
        mapPages A { s.machine with pages := pages } pageDir (pgRoundDown ph.vaddr) pa ph.memsz
            (pgType ph.flags) true false >>= fun (_, machine) =>
          .ok { s with
            machine := machine
            memory := memory
            imageStart := if ph.vaddr < s.imageStart then ph.vaddr else s.imageStart
            progBreak := if s.progBreak < stop then stop else s.progBreak }

/-- The program header number `i` is read over what `P_header` holds. -/
def readPhdr (e ph : Bytes) (i : Nat) : Bytes :=
  overwrite ph 0 ((reader ((phoff e + i * PHDR_SIZE) % 2 ^ 64) PHDR_SIZE).take PHDR_SIZE)

/-- One turn of the loop over the program headers. -/
def loadTurn (pageDir : Nat) (e : Bytes) (t : Bytes × LoadState σ) (i : Nat) :
    Except Fault (Bytes × LoadState σ) :=
  let ph := readPhdr reader e t.1 i
  if (Phdr.ofBytes ph).type = PT_LOAD then
    loadSegment A reader pageDir t.2 (Phdr.ofBytes ph) >>= fun s => .ok (ph, s)
  else .ok (ph, t.2)

/-- The file header, read over what `E_header` holds. -/
def readEhdr (stale : Bytes) : Bytes := overwrite stale 0 ((reader 0 EHDR_SIZE).take EHDR_SIZE)

/-- `elf_load_to_process`; `stale` is what its two local structures hold at first. -/
def loadToProcess (pageDir : Nat) (stale : Bytes × Bytes) (s : LoadState σ) :
    Except Fault (Bool × LoadState σ) :=
  let e := readEhdr reader stale.1
  if checkHeader e = false then .ok (false, s)
  else
    let s := { s with imageStart := 2 ^ 64 - 1, progBreak := 0, progSize := 0 }
    if phentsize e ≠ PHDR_SIZE then .ok (false, s)
    else if shentsize e ≠ SHDR_SIZE then .ok (false, s)
    else
      (List.range (phnum e)).foldlM (loadTurn A reader pageDir e) (stale.2, s) >>= fun (_, s) =>
        .ok (true, { s with
          progSize := (s.progBreak + 2 ^ 64 - s.imageStart) % 2 ^ 64
          userPc := entry e })

/-- The loader succeeds on a file header that it accepts, when every turn of its loop returns. -/
theorem load_to_process_iff {A} {reader} {pageDir : Nat} {stale : Bytes × Bytes}
    {s s₁ : LoadState σ} :
    loadToProcess A reader pageDir stale s = .ok (true, s₁) ↔
      Executable (readEhdr reader stale.1) ∧
      ∃ ph s₂, (List.range (phnum (readEhdr reader stale.1))).foldlM
          (loadTurn A reader pageDir (readEhdr reader stale.1))
          (stale.2, { s with imageStart := 2 ^ 64 - 1, progBreak := 0, progSize := 0 }) =
            .ok (ph, s₂) ∧
        { s₂ with
          progSize := (s₂.progBreak + 2 ^ 64 - s₂.imageStart) % 2 ^ 64
          userPc := entry (readEhdr reader stale.1) } = s₁ := by
  rw [executable_iff, loadToProcess]
  dsimp only
  split_ifs with invalid programs sections
  · simp [invalid]
  · simp [programs]
  · simp [sections]
  · rw [Bool.not_eq_false] at invalid
    rw [not_not] at programs sections
    simp [bind_eq_ok, invalid, programs, sections]

section Memory

variable {A} {reader} {pa pageDir : Nat} {ph : Phdr}

theorem fill_segment_memory {m m₁ : Bytes} (m' : Bytes)
    (returns : fillSegment reader m pa ph = .ok m₁) :
    ∃ m₁', fillSegment reader m' pa ph = .ok m₁' := by
  rw [fillSegment] at returns ⊢
  obtain ⟨_, data, rest⟩ := bind_eq_ok.mp returns
  obtain ⟨_, lead, rest⟩ := bind_eq_ok.mp rest
  rw [data, lead]
  split_ifs at rest ⊢ with same large
  · exact ⟨_, rfl⟩
  · cases rest
  · obtain ⟨_, tail, _⟩ := bind_eq_ok.mp rest
    rw [tail]
    exact ⟨_, rfl⟩

theorem load_segment_memory {s s₁ : LoadState σ} (m' : Bytes)
    (returns : loadSegment A reader pageDir s ph = .ok s₁) :
    ∃ m₁', loadSegment A reader pageDir { s with memory := m' } ph =
      .ok { s₁ with memory := m₁' } := by
  rw [loadSegment] at returns ⊢
  obtain ⟨⟨p, pages⟩, allocated, rest⟩ := bind_eq_ok.mp returns
  obtain ⟨m, filled, rest⟩ := bind_eq_ok.mp rest
  obtain ⟨_, supported, rest⟩ := bind_eq_ok.mp rest
  obtain ⟨⟨_, machine⟩, mapped, rest⟩ := bind_eq_ok.mp rest
  obtain ⟨m₁', filled'⟩ := fill_segment_memory m' filled
  dsimp only at mapped ⊢
  rw [allocated, bind_ok]
  dsimp only
  rw [filled', supported, mapped]
  cases rest
  exact ⟨m₁', rfl⟩

theorem load_turn_memory {e : Bytes} {i : Nat} {t t₁ : Bytes × LoadState σ} (m' : Bytes)
    (returns : loadTurn A reader pageDir e t i = .ok t₁) :
    ∃ m₁', loadTurn A reader pageDir e (t.1, { t.2 with memory := m' }) i =
      .ok (t₁.1, { t₁.2 with memory := m₁' }) := by
  rw [loadTurn] at returns ⊢
  dsimp only
  split_ifs at returns ⊢ with loads
  · obtain ⟨s₁, loaded, rest⟩ := bind_eq_ok.mp returns
    obtain ⟨m₁', loaded'⟩ := load_segment_memory m' loaded
    rw [loaded']
    cases rest
    exact ⟨m₁', rfl⟩
  · cases returns
    exact ⟨m', rfl⟩

theorem load_turns_memory {e : Bytes} {is : List Nat} {t t₁ : Bytes × LoadState σ} (m' : Bytes)
    (returns : is.foldlM (loadTurn A reader pageDir e) t = .ok t₁) :
    ∃ m₁', is.foldlM (loadTurn A reader pageDir e) (t.1, { t.2 with memory := m' }) =
      .ok (t₁.1, { t₁.2 with memory := m₁' }) := by
  induction is generalizing t m' with
  | nil =>
    cases returns
    exact ⟨m', rfl⟩
  | cons i is ih =>
    rw [List.foldlM_cons] at returns ⊢
    obtain ⟨t₂, turn, rest⟩ := bind_eq_ok.mp returns
    obtain ⟨m₂', turn'⟩ := load_turn_memory m' turn
    rw [turn']
    exact ih m₂' rest

/-- What the pages of the process hold has no influence on the loader. -/
theorem load_to_process_memory {stale : Bytes × Bytes} {s s₁ : LoadState σ} {ret : Bool}
    (m' : Bytes) (returns : loadToProcess A reader pageDir stale s = .ok (ret, s₁)) :
    ∃ m₁', loadToProcess A reader pageDir stale { s with memory := m' } =
      .ok (ret, { s₁ with memory := m₁' }) := by
  rw [loadToProcess] at returns ⊢
  dsimp only at returns ⊢
  split_ifs at returns ⊢ with invalid programs sections
  · cases returns
    exact ⟨m', rfl⟩
  · cases returns
    exact ⟨m', rfl⟩
  · cases returns
    exact ⟨m', rfl⟩
  · obtain ⟨t, turns, rest⟩ := bind_eq_ok.mp returns
    obtain ⟨m₁', turns'⟩ := load_turns_memory m' turns
    dsimp only at turns'
    rw [turns']
    cases rest
    exact ⟨m₁', rfl⟩

end Memory

end Load

end Elf

end Mftt
