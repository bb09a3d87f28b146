import Smolisa.Instruction.Encoding
import Smolisa.Memory
import Smolisa.Word.Hex

/-!
# Assembly Listings

A listing shows memory words as assembly text. Each row shows one word: its mnemonic and its
operands, in the order in which the assembly language has them. A word that the machine does
not execute is shown as a `.word` with its value.

A window of a listing starts at an address and has a given number of rows, but it ends early
at the end of memory, and at the end of the address space.

## Main results

* `Listing.rows_eq_nil_iff` — a window is empty exactly if no row is asked for, or there is no
  word at its first address.
-/

namespace Smolisa

namespace Word

/-- The operands of an instruction in assembly text. Loads and stores put the address register
in brackets, and the register that is written comes first. -/
def operands (op : Opcode) (w : Word) : String :=
  match op with
  | .li | .liu => w.r1.name ++ ", " ++ Hex.ofByte w.imm8
  | .lb | .lw => w.r2.name ++ ", [" ++ w.r1.name ++ "]"
  | .sb | .sw => "[" ++ w.r1.name ++ "], " ++ w.r2.name
  | .lrz | .lrnz | .add | .sub | .and | .or | .xor | .shl | .shr | .swb =>
    w.r1.name ++ ", " ++ w.r2.name ++ ", " ++ w.r3.name

end Word

namespace Listing

/-- One row of a listing. -/
structure Row where
  /-- The address of the word. -/
  addr : Word
  /-- The word. -/
  word : Word
  /-- The mnemonic of the instruction. -/
  mnemonic : String
  /-- The operands of the instruction. -/
  operands : String
  /-- Whether the machine does not execute the word. -/
  isIllegal : Bool
  deriving DecidableEq

/-- The row that shows a word. -/
def Row.ofWord (addr word : Word) (profile : Profile) : Row :=
  match word.opcode? profile with
  | some op => ⟨addr, word, op.mnemonic, word.operands op, false⟩
  | none => ⟨addr, word, ".word", Hex.ofWord word ++ " ; illegal", true⟩

/-- The assembly text of a row. -/
def Row.text (row : Row) : String :=
  row.mnemonic ++ " " ++ row.operands

/-- The assembly text of a word. -/
def disassemble (word : Word) (profile : Profile) : String :=
  (Row.ofWord 0 word profile).text

/-- The rows for the words at an address and behind it, at most `count` of them, as far as
there is memory and the addresses have sixteen bits. -/
def rows (memory : Memory) (profile : Profile) : (count addr : Nat) → List Row
  | 0, _ => []
  | count + 1, addr =>
    if addr < 65536 then
      match memory.read (addr / 2) with
      | .ok word =>
        Row.ofWord (UInt16.ofNat addr) word profile :: rows memory profile count (addr + 2)
      | .error _ => []
    else
      []

/-- The window of a listing that starts at the word in which an address lies. -/
def window (start : Word) (count : Nat) (memory : Memory) (profile : Profile) : List Row :=
  rows memory profile count (start &&& 0xFFFE).toNat

/-- A row keeps the address and the word that it shows. -/
@[simp] theorem Row.addr_ofWord (addr word : Word) (profile : Profile) :
    (Row.ofWord addr word profile).addr = addr := by
  rw [Row.ofWord]
  split <;> rfl

@[simp] theorem Row.word_ofWord (addr word : Word) (profile : Profile) :
    (Row.ofWord addr word profile).word = word := by
  rw [Row.ofWord]
  split <;> rfl

/-- A row is marked exactly if the machine does not execute its word. -/
theorem Row.isIllegal_ofWord (addr word : Word) (profile : Profile) :
    (Row.ofWord addr word profile).isIllegal = (word.opcode? profile).isNone := by
  rw [Row.ofWord]
  split <;> simp_all

/-- A window is empty exactly if no row is asked for, or there is no word at its first
address. -/
theorem rows_eq_nil_iff (memory : Memory) (profile : Profile) (count addr : Nat) :
    rows memory profile count addr = [] ↔
      count = 0 ∨ 65536 ≤ addr ∨ memory.capacity ≤ addr / 2 := by
  cases count with
  | zero => simp [rows]
  | succ count =>
    by_cases haddr : addr < 65536
    · by_cases hcap : addr / 2 < memory.capacity
      · obtain ⟨w, hw⟩ := Memory.exists_read_of_lt hcap
        simp [rows, haddr, hw]
        omega
      · simp [rows, haddr, Memory.read_of_le (Nat.not_lt.1 hcap)]
        omega
    · simp [rows, haddr]
      omega

end Listing

end Smolisa
