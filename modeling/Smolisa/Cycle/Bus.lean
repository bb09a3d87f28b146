import Smolisa.Cycle.Alu
import Smolisa.Word.Lanes

/-!
# The Control Bus

In every micro-cycle the control unit tells the datapath what to do through a bundle of
control signals, the `Bus`. Some signals enable an activity (write a register, read memory,
write memory), the others set the selectors: which two source registers are read, what
the arithmetic unit combines, which address goes to memory, and what is written back. A bus
is a plain value. It is computed anew for each micro-cycle and stored nowhere.

## Main results

* `Bus.registerMask_eq_none_iff` — the mask of a register write is empty exactly when the write is
  not enabled.
-/

namespace Smolisa

/-- The choice of a register: one of the three that the instruction names, or the instruction
pointer. -/
inductive RegisterSelect
  | r1 | r2 | r3
  | ip
  deriving DecidableEq

/-- The choice of the word that is written to a register. -/
inductive ResultSelect
  /-- The immediate byte, in the low lane. -/
  | immediateLow
  /-- The immediate byte, in the high lane. -/
  | immediateHigh
  /-- The low byte read from memory. -/
  | memoryByte
  /-- The word read from memory. -/
  | memoryWord
  /-- The output of the arithmetic unit. -/
  | alu
  deriving DecidableEq

/-- The choice of an operand of the arithmetic unit. -/
inductive OperandSelect
  | ip
  | source1
  | source2
  /-- The constant two, the distance from one instruction to the next. -/
  | two
  deriving DecidableEq

/-- The choice of the memory address. -/
inductive AddressSelect
  | ip
  | source1
  deriving DecidableEq

/-- The choice of the word that is written to memory. -/
inductive StoreSelect
  | ip
  | source2
  deriving DecidableEq

/-- The control signals of one micro-cycle. -/
structure Bus where
  /-- Whether a register is written. -/
  writesRegister : Bool
  /-- The register that is written. -/
  target : RegisterSelect
  /-- What is written to it. -/
  result : ResultSelect
  /-- The first source register. -/
  source1 : RegisterSelect
  /-- The second source register. -/
  source2 : RegisterSelect
  /-- Whether memory is written. -/
  writesMemory : Bool
  /-- Whether a memory write reaches the low byte only. -/
  storesByte : Bool
  /-- The address that memory is accessed at. -/
  address : AddressSelect
  /-- What is written to memory. -/
  store : StoreSelect
  /-- Whether memory is read. -/
  readsMemory : Bool
  /-- The operation of the arithmetic unit. -/
  aluOp : AluOp
  /-- Its first operand. -/
  operandA : OperandSelect
  /-- Its second operand. -/
  operandB : OperandSelect
  deriving DecidableEq

namespace Bus

/-- The bus of a cycle in which nothing is written and memory is not touched. -/
def idle : Bus where
  writesRegister := false
  target := .r1
  result := .alu
  source1 := .r1
  source2 := .r2
  writesMemory := false
  storesByte := false
  address := .ip
  store := .source2
  readsMemory := false
  aluOp := .add
  operandA := .source1
  operandB := .source2

/-- The lanes that the memory write of a cycle reaches. -/
def memoryMask (bus : Bus) : LaneMask :=
  if !bus.writesMemory then .none else if bus.storesByte then .low else .both

/-- The lanes that the register write of a cycle reaches. -/
def registerMask (bus : Bus) : LaneMask :=
  if !bus.writesRegister then
    .none
  else
    match bus.result with
    | .immediateLow | .memoryByte => .low
    | .immediateHigh => .high
    | .memoryWord | .alu => .both

/-- Whether a cycle accesses memory at all. -/
def touchesMemory (bus : Bus) : Bool :=
  bus.readsMemory || bus.writesMemory

/-- The register mask is empty exactly when no register is written. -/
theorem registerMask_eq_none_iff {bus : Bus} :
    bus.registerMask = .none ↔ bus.writesRegister = false := by
  rw [registerMask]
  cases bus.writesRegister <;> cases bus.result <;> simp

end Bus

end Smolisa
