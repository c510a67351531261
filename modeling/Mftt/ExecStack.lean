import Mftt.ElfLoader

/-!
# The stack of a new program

The part of `do_execve` that fills the pages of the new stack, from their end downwards: the
strings of the environment and of the arguments, the two tables of pointers to them, and three
words. The pages are written through their kernel addresses, and nothing compares the stack
pointer with the first of them: a program whose strings and tables are too long writes below its
block, which is the outcome `outOfBounds`.
-/

namespace Mftt

open ByteMemory Slices

abbrev PROC_STACK_SIZE : Nat := 0x2000
abbrev PROC_STACK_BASE : Nat := 0x80000000

/-- A string without its NUL. -/
structure CString where
  text : List (BitVec 8)
  proper : 0#8 ∉ text

namespace CString

/-- The bytes of a string with its NUL. -/
def bytes (e : CString) : List (BitVec 8) := e.text ++ [0#8]

/-- `strlen(e) + 1`. -/
def size (e : CString) : Nat := e.text.length + 1

end CString

namespace ExecStack

/-- `ROUNDDOWN_WITH(sizeof(uint64_t), sp)`. -/
def alignDown (sp : Nat) : Nat := sp / 8 * 8

/-- The stack pointer and the memory. -/
abbrev Cursor := Nat × Bytes

/-- Take `n` bytes from the stack; they are about to be written. -/
def take (block : Nat) (sp n : Nat) : Except Fault Nat :=
  Elf.inside block PROC_STACK_SIZE (sp - n) n >>= fun _ => .ok (sp - n)

/-- One turn of the loops over the strings. -/
def pushString (block : Nat) (t : Cursor) (e : CString) : Except Fault Cursor :=
  take block t.1 e.size >>= fun sp => .ok (sp, overwrite t.2 sp e.bytes)

/-- The loops over the strings, which go from the last one to the first. -/
def pushStrings (block : Nat) (t : Cursor) : List CString → Except Fault Cursor
  | [] => .ok t
  | e :: rest => pushStrings block t rest >>= fun t => pushString block t e

/-- Words at consecutive addresses. -/
def storeWords (m : Bytes) (a : Nat) : List Nat → Bytes
  | [] => m
  | word :: rest => storeWords (store m a 8 word) (a + 8) rest

/-- Push words; the first of them ends at the lowest address. -/
def pushWords (block : Nat) (t : Cursor) (words : List Nat) : Except Fault Cursor :=
  take block t.1 (8 * words.length) >>= fun sp => .ok (sp, storeWords t.2 sp words)

/-- `get_offset_addr(process_stack, addr, PROC_STACK_BASE - PROC_STACK_SIZE)`. -/
def userAddress (block a : Nat) : Nat :=
  (PROC_STACK_BASE - PROC_STACK_SIZE + (a + 2 ^ 64 - block)) % 2 ^ 64

/-- The loop that fills a table after its first entry. It ends with NULL, but over an empty list
it makes no turn. -/
def tableRest (a : Nat) : List CString → List Nat
  | [] => []
  | [_] => [0]
  | e :: rest => (a + e.size) % 2 ^ 64 :: tableRest ((a + e.size) % 2 ^ 64) rest

/-- `envp` or `argvp` for strings that start at `a`. -/
def pointerTable (a : Nat) (strings : List CString) : List Nat := a :: tableRest a strings

/-- The stack as `do_execve` leaves it: its bytes, the stack pointer and the addresses of the two
tables, all of them kernel addresses, and the words that were stored. -/
structure Stack where
  memory : Bytes
  sp : Nat
  envp : Nat
  argvp : Nat
  words : List Nat

/-- The arguments of a program; `address` is the array of the kernel that holds them. -/
structure Arguments where
  argv : List CString
  env : List CString
  address : Nat

/-- `do_execve` from the allocation of the stack to the three words. -/
def build (block : Nat) (m : Bytes) (args : Arguments) : Except Fault Stack :=
  pushStrings block (block + PROC_STACK_SIZE, m) args.env >>= fun (headOfEnvp, m) =>
    pushStrings block (alignDown headOfEnvp, m) args.argv >>= fun (headOfArgv, m) =>
      let envTable := pointerTable (userAddress block headOfEnvp) args.env
      pushWords block (alignDown headOfArgv, m) envTable >>= fun (envp, m) =>
        let argTable := pointerTable (userAddress block headOfArgv) args.argv
        pushWords block (envp, m) argTable >>= fun (argvp, m) =>
          let last := [args.argv.length, args.address, envp]
          pushWords block (argvp, m) last >>= fun (sp, m) =>
            .ok {
              memory := m
              sp := sp
              envp := envp
              argvp := argvp
              words := envTable ++ argTable ++ last }

section Layout

/-- The bytes of strings. -/
def stringBytes (strings : List CString) : Nat := (strings.map CString.size).sum

/-- The next multiple of 8. -/
def alignUp (n : Nat) : Nat := (n + 7) / 8 * 8

/-- How far below the end of the stack its parts start. -/
def offsetOfArgStrings (args : Arguments) : Nat :=
  alignUp (stringBytes args.env) + stringBytes args.argv

def offsetEnvp (args : Arguments) : Nat :=
  alignUp (offsetOfArgStrings args) + 8 * (args.env.length + 1)

def offsetArgv (args : Arguments) : Nat := offsetEnvp args + 8 * (args.argv.length + 1)

/-- The bytes that the strings, the tables and the three words take, with the two paddings. -/
def needed (args : Arguments) : Nat := offsetArgv args + 24

/-- The address at some distance below the end of the stack. -/
def down (block offset : Nat) : Nat := block + PROC_STACK_SIZE - offset

variable {block offset n : Nat} {m : Bytes}

/-- Padding the stack pointer is padding the distance. -/
theorem align_down (aligned : block % PG_SIZE = 0) (within : offset ≤ PROC_STACK_SIZE) :
    alignDown (down block offset) = down block (alignUp offset) ∧
      alignUp offset ≤ PROC_STACK_SIZE := by
  simp only [PG_SIZE, PROC_STACK_SIZE, alignDown, down, alignUp] at *
  omega

/-- A part of the stack is taken where it lies in the pages, and only there. -/
theorem take_cases (offset : Nat) (set : block ≠ 0) (some : n ≠ 0) :
    (offset + n ≤ PROC_STACK_SIZE ∧
      take block (down block offset) n = .ok (down block (offset + n))) ∨
      (PROC_STACK_SIZE < offset + n ∧ take block (down block offset) n = .error .outOfBounds) := by
  have lower : down block offset - n = down block (offset + n) := Nat.sub_sub ..
  rw [take, Elf.inside, if_neg some, if_neg set, lower]
  rcases Nat.lt_or_ge PROC_STACK_SIZE (offset + n) with long | fits
  · right
    rw [down, if_neg (by omega)]
    exact ⟨long, rfl⟩
  · left
    rw [down, if_pos (by omega)]
    exact ⟨fits, rfl⟩

theorem push_string_cases (set : block ≠ 0) (e : CString) :
    (offset + e.size ≤ PROC_STACK_SIZE ∧ ∃ m',
      pushString block (down block offset, m) e = .ok (down block (offset + e.size), m')) ∨
      (PROC_STACK_SIZE < offset + e.size ∧
        pushString block (down block offset, m) e = .error .outOfBounds) := by
  have nonempty : e.size ≠ 0 := Nat.succ_ne_zero _
  rcases take_cases offset set nonempty with ⟨fits, taken⟩ | ⟨long, taken⟩
  · left
    rw [pushString, taken]
    exact ⟨fits, _, rfl⟩
  · right
    rw [pushString, taken]
    exact ⟨long, rfl⟩

theorem push_strings_cases (set : block ≠ 0) (within : offset ≤ PROC_STACK_SIZE)
    (strings : List CString) :
    (offset + stringBytes strings ≤ PROC_STACK_SIZE ∧ ∃ m',
      pushStrings block (down block offset, m) strings =
        .ok (down block (offset + stringBytes strings), m')) ∨
      (PROC_STACK_SIZE < offset + stringBytes strings ∧
        pushStrings block (down block offset, m) strings = .error .outOfBounds) := by
  induction strings with
  | nil => exact Or.inl ⟨within, m, rfl⟩
  | cons e rest ih =>
    have bytes : offset + stringBytes (e :: rest) = offset + stringBytes rest + e.size := by
      rw [stringBytes, List.map_cons, List.sum_cons, stringBytes]
      omega
    rw [pushStrings, bytes]
    rcases ih with ⟨fits, m', pushed⟩ | ⟨long, pushed⟩
    · rw [pushed]
      exact push_string_cases set e
    · right
      rw [pushed]
      exact ⟨Nat.lt_add_right _ long, rfl⟩

theorem push_words_cases (offset : Nat) (m : Bytes) (set : block ≠ 0) {words : List Nat}
    (some : words ≠ []) :
    (offset + 8 * words.length ≤ PROC_STACK_SIZE ∧ ∃ m', pushWords block (down block offset, m)
      words = .ok (down block (offset + 8 * words.length), m')) ∨
      (PROC_STACK_SIZE < offset + 8 * words.length ∧
        pushWords block (down block offset, m) words = .error .outOfBounds) := by
  have nonempty : 8 * words.length ≠ 0 := by
    have := List.length_pos_of_ne_nil some
    omega
  rcases take_cases offset set nonempty with ⟨fits, taken⟩ | ⟨long, taken⟩
  · left
    rw [pushWords, taken]
    exact ⟨fits, _, rfl⟩
  · right
    rw [pushWords, taken]
    exact ⟨long, rfl⟩

theorem length_table (a : Nat) (strings : List CString) :
    (pointerTable a strings).length = strings.length + 1 := by
  induction strings generalizing a with
  | nil => rfl
  | cons e rest ih =>
    cases rest with
    | nil => rfl
    | cons e' rest => exact congrArg Nat.succ (ih _)

theorem push_table_cases (offset : Nat) (m : Bytes) (set : block ≠ 0) (a : Nat)
    (strings : List CString) :
    (offset + 8 * (strings.length + 1) ≤ PROC_STACK_SIZE ∧ ∃ m',
      pushWords block (down block offset, m) (pointerTable a strings) =
        .ok (down block (offset + 8 * (strings.length + 1)), m')) ∨
      (PROC_STACK_SIZE < offset + 8 * (strings.length + 1) ∧
        pushWords block (down block offset, m) (pointerTable a strings) = .error .outOfBounds) := by
  rw [← length_table a strings]
  exact push_words_cases offset m set (List.cons_ne_nil _ _)

/-- The parts of the stack lie one below the other. -/
theorem layout_descends (args : Arguments) :
    stringBytes args.env ≤ offsetOfArgStrings args ∧
      offsetOfArgStrings args ≤ offsetEnvp args ∧ offsetEnvp args ≤ offsetArgv args ∧
        offsetArgv args ≤ needed args := by
  simp only [needed, offsetArgv, offsetEnvp, offsetOfArgStrings, alignUp]
  omega

/-- The words that are stored on the stack. -/
def storedWords (block : Nat) (args : Arguments) : List Nat :=
  pointerTable (userAddress block (down block (stringBytes args.env))) args.env ++
    pointerTable (userAddress block (down block (offsetOfArgStrings args))) args.argv ++
      [args.argv.length, args.address, down block (offsetEnvp args)]

/-- The stack is built where everything fits, and only there. -/
theorem build_cases (set : block ≠ 0) (aligned : block % PG_SIZE = 0) (args : Arguments) :
    (needed args ≤ PROC_STACK_SIZE ∧ ∃ m', build block m args = .ok
      { memory := m'
        sp := down block (needed args)
        envp := down block (offsetEnvp args)
        argvp := down block (offsetArgv args)
        words := storedWords block args }) ∨
      (PROC_STACK_SIZE < needed args ∧ build block m args = .error .outOfBounds) := by
  obtain ⟨argStrings, envTable, argTable, words⟩ := layout_descends args
  rw [build, show block + PROC_STACK_SIZE = down block 0 from rfl]
  have env := push_strings_cases (m := m) set (Nat.zero_le _) args.env
  rw [Nat.zero_add] at env
  rcases env with ⟨fits, m₁, pushed⟩ | ⟨long, pushed⟩
  case inr =>
    rw [pushed]
    exact Or.inr ⟨by omega, rfl⟩
  obtain ⟨padded, within⟩ := align_down aligned fits
  rw [pushed, bind_ok]
  dsimp only
  rw [padded]
  rcases push_strings_cases (m := m₁) set within args.argv with ⟨fits, m₂, pushed⟩ | ⟨long, pushed⟩
  case inr =>
    rw [pushed]
    exact Or.inr ⟨by rw [offsetOfArgStrings] at *; omega, rfl⟩
  obtain ⟨padded, within⟩ := align_down aligned fits
  rw [pushed, bind_ok, ← offsetOfArgStrings]
  dsimp only
  rw [← offsetOfArgStrings] at padded within
  rw [padded]
  rcases push_table_cases (alignUp (offsetOfArgStrings args)) m₂ set _ args.env with
    ⟨fits, m₃, pushed⟩ | ⟨long, pushed⟩
  case inr =>
    rw [pushed]
    exact Or.inr ⟨by rw [offsetEnvp] at *; omega, rfl⟩
  rw [pushed, bind_ok, ← offsetEnvp]
  dsimp only
  rcases push_table_cases (offsetEnvp args) m₃ set _ args.argv with
    ⟨fits, m₄, pushed⟩ | ⟨long, pushed⟩
  case inr =>
    rw [pushed]
    exact Or.inr ⟨by rw [offsetArgv] at *; omega, rfl⟩
  rw [pushed, bind_ok, ← offsetArgv]
  dsimp only
  rcases push_words_cases (offsetArgv args) m₄ set (List.cons_ne_nil args.argv.length
      [args.address, down block (offsetEnvp args)]) with ⟨fits, m₅, pushed⟩ | ⟨long, pushed⟩
  · rw [pushed]
    exact Or.inl ⟨fits, m₅, rfl⟩
  · rw [pushed]
    exact Or.inr ⟨long, rfl⟩

/-- Words that were pushed lie in the pages of the stack. -/
theorem push_words_inside {sp : Nat} {words : List Nat} {t : Cursor} (some : words ≠ [])
    (returns : pushWords block (sp, m) words = .ok t) : block ≤ t.1 := by
  have nonempty : 8 * words.length ≠ 0 := by
    have := List.length_pos_of_ne_nil some
    omega
  obtain ⟨sp', taken, rest⟩ := bind_eq_ok.mp returns
  obtain ⟨_, within, last⟩ := bind_eq_ok.mp taken
  rw [Elf.inside, if_neg nonempty] at within
  split_ifs at within with null bounds
  cases last
  cases rest
  exact bounds.1

/-- The kernel address of the table of the environment is one of the words of the stack. -/
theorem build_stores_envp {args : Arguments} {stack : Stack}
    (returns : build block m args = .ok stack) :
    stack.envp ∈ stack.words ∧ block ≤ stack.envp := by
  obtain ⟨⟨headOfEnvp, m₁⟩, _, rest⟩ := bind_eq_ok.mp returns
  obtain ⟨⟨headOfArgv, m₂⟩, _, rest⟩ := bind_eq_ok.mp rest
  obtain ⟨⟨envp, m₃⟩, table, rest⟩ := bind_eq_ok.mp rest
  obtain ⟨⟨argvp, m₄⟩, _, rest⟩ := bind_eq_ok.mp rest
  obtain ⟨⟨sp, m₅⟩, _, rest⟩ := bind_eq_ok.mp rest
  cases rest
  refine ⟨?_, push_words_inside (List.cons_ne_nil _ _) table⟩
  simp

end Layout

end ExecStack

end Mftt
