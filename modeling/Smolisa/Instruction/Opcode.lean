/-!
# Opcodes

An instruction carries its opcode in four bits, and all sixteen patterns are assigned. The
opcode fixes the mnemonic of the instruction, the layout of its other twelve bits and the
number of clock cycles it takes.

A machine need not implement all of them: a `Profile` says which opcodes it admits. The full
profile admits every opcode, the datapath profile only the two that a machine with nothing
but a register file and an arithmetic unit needs, `li` and `or`.

## Main results

* `Opcode.ofNibble?_eq_some_iff` — an opcode is found under its own bit pattern only.
* `Opcode.decode?_eq_some_iff` — decoding finds the opcode and asks the profile.
* `Opcode.decode?_full` — under the full profile every four-bit pattern decodes.
* `Opcode.mnemonic_inj` — opcodes are told apart by their mnemonics.
* `CostClass.cycles?_eq_some` — the cost table has every class of instructions.
-/

namespace Smolisa

/-- The operation that an instruction performs. -/
inductive Opcode
  | li | liu
  | lb | sb | lw | sw
  | lrz | lrnz
  | add | sub | and | or | xor | shl | shr | swb
  deriving DecidableEq

/-- The layout of the twelve bits behind the opcode: a register and a byte, or three
registers. -/
inductive InstructionFormat
  | immediate
  | register
  deriving DecidableEq

/-- What an instruction spends its cycles on. -/
inductive CostClass
  | loadImmediate
  | memoryAccess
  | conditionalMove
  | arithmetic
  deriving DecidableEq

/-- The part of the instruction set that a machine implements. -/
inductive Profile
  | full
  | datapath
  deriving DecidableEq, Inhabited

namespace Opcode

/-- The opcodes in the order of their bit patterns. -/
def all : List Opcode :=
  [li, liu, lb, sb, lw, sw, lrz, lrnz, add, sub, and, or, xor, shl, shr, swb]

/-- The bit pattern of an opcode. -/
def nibble : Opcode → UInt8
  | li => 0x0 | liu => 0x1 | lb => 0x2 | sb => 0x3 | lw => 0x4 | sw => 0x5
  | lrz => 0x6 | lrnz => 0x7 | add => 0x8 | sub => 0x9 | and => 0xA | or => 0xB
  | xor => 0xC | shl => 0xD | shr => 0xE | swb => 0xF

/-- The opcode with a given bit pattern, if there is one. -/
def ofNibble? (n : UInt8) : Option Opcode :=
  all.find? fun op => op.nibble == n

/-- The name of an opcode in assembly text. -/
def mnemonic : Opcode → String
  | li => "li" | liu => "liu" | lb => "lb" | sb => "sb" | lw => "lw" | sw => "sw"
  | lrz => "lrz" | lrnz => "lrnz" | add => "add" | sub => "sub" | and => "and" | or => "or"
  | xor => "xor" | shl => "shl" | shr => "shr" | swb => "swb"

/-- The layout of the instructions with a given opcode. -/
def format : Opcode → InstructionFormat
  | li | liu => .immediate
  | _ => .register

/-- What the instructions with a given opcode spend their cycles on. -/
def costClass : Opcode → CostClass
  | li | liu => .loadImmediate
  | lb | sb | lw | sw => .memoryAccess
  | lrz | lrnz => .conditionalMove
  | add | sub | and | or | xor | shl | shr | swb => .arithmetic

end Opcode

namespace CostClass

/-- The classes of instructions that are priced alike. -/
def all : List CostClass :=
  [loadImmediate, memoryAccess, conditionalMove, arithmetic]

/-- The cost table: the number of clock cycles that the instructions of each class take. -/
def table : List (CostClass × Nat) :=
  [(loadImmediate, 2), (memoryAccess, 4), (conditionalMove, 3), (arithmetic, 3)]

/-- The number of clock cycles that the table has for a class, if it has one. -/
def cycles? (c : CostClass) : Option Nat :=
  table.lookup c

/-- The number of clock cycles that an instruction of a class takes. A class that the table does
not have would take none. -/
def cycles (c : CostClass) : Nat :=
  c.cycles?.getD 0

end CostClass

/-- Whether a profile admits an opcode. -/
def Profile.admits : Profile → Opcode → Bool
  | .full, _ => true
  | .datapath, .li => true
  | .datapath, .or => true
  | .datapath, _ => false

namespace Opcode

/-- The number of clock cycles that an instruction takes. -/
def cycles (op : Opcode) : Nat :=
  op.costClass.cycles

/-- The opcode that a machine with a given profile executes for a bit pattern, if it
executes one. -/
def decode? (profile : Profile) (n : UInt8) : Option Opcode :=
  (ofNibble? n).filter profile.admits

@[simp] theorem ofNibble?_nibble (op : Opcode) : ofNibble? op.nibble = some op := by
  cases op <;> rfl

/-- An opcode is found under its own bit pattern only. -/
theorem ofNibble?_eq_some_iff {n : UInt8} {op : Opcode} :
    ofNibble? n = some op ↔ n = op.nibble := by
  constructor
  · intro h
    rw [ofNibble?] at h
    have found := List.find?_some h
    exact (beq_iff_eq.1 found).symm
  · rintro rfl
    exact ofNibble?_nibble op

/-- Decoding finds the opcode and asks the profile. -/
theorem decode?_eq_some_iff {profile : Profile} {n : UInt8} {op : Opcode} :
    decode? profile n = some op ↔ n = op.nibble ∧ profile.admits op = true := by
  simp [decode?, Option.filter_eq_some_iff, ofNibble?_eq_some_iff]

/-- What decodes under some profile is an opcode. -/
theorem ofNibble?_of_decode? {profile : Profile} {n : UInt8} {op : Opcode}
    (h : decode? profile n = some op) : ofNibble? n = some op :=
  ofNibble?_eq_some_iff.2 (decode?_eq_some_iff.1 h).1

/-- Under the full profile every four-bit pattern decodes. -/
theorem decode?_full {n : UInt8} (h : n < 16) : (decode? .full n).isSome := by
  have table : ∀ i : Fin 16, (decode? .full (UInt8.ofNat i)).isSome := by decide
  simpa using table ⟨n.toNat, UInt8.lt_iff_toNat_lt.1 h⟩

/-- Opcodes are told apart by their mnemonics. -/
theorem mnemonic_inj {op op' : Opcode} (h : op.mnemonic = op'.mnemonic) : op = op' := by
  have table : ∀ x ∈ all, ∀ y ∈ all, x.mnemonic = y.mnemonic → x = y := by decide
  exact table op (by cases op <;> decide) op' (by cases op' <;> decide) h

/-- An instruction takes between two and four cycles. -/
theorem cycles_bounds (op : Opcode) : 2 ≤ op.cycles ∧ op.cycles ≤ 4 := by
  cases op <;> decide

end Opcode

end Smolisa
