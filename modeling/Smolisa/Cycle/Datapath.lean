import Smolisa.Cycle.Bus
import Smolisa.Instruction.Encoding
import Smolisa.Memory
import Smolisa.Register.File

/-!
# The Datapath

The datapath is the set of selectors between the register file, the arithmetic unit and
memory. Given the bus of a micro-cycle it works out, without changing anything, what the cycle
computes, what it reads from memory, and which writes it proposes: the `Effects` of the cycle.
The only way for a cycle to fail is to access an address outside memory.

## Main results

* `Bus.drive_eq_ok_iff` — the effects of a cycle, given the word that it loads.
* `Bus.loadData_of_not_touches` — a cycle that does not access memory loads zero and cannot
  fail.
-/

namespace Smolisa

/-- A write to some lanes of a register. -/
structure RegisterWrite where
  register : Register
  data : Word
  mask : LaneMask
  deriving DecidableEq

/-- A write to some lanes of a memory word. -/
structure MemoryWrite where
  index : Nat
  data : Word
  mask : LaneMask
  deriving DecidableEq

/-- What one micro-cycle computes, and the writes that it proposes. -/
structure Effects where
  /-- The output of the arithmetic unit. -/
  alu : AluOutput
  /-- The word loaded from memory, zero if memory is not accessed. -/
  readData : Word
  /-- The register write that the cycle proposes. -/
  registerWrite : Option RegisterWrite
  /-- The memory write that the cycle proposes. -/
  memoryWrite : Option MemoryWrite
  deriving DecidableEq

/-! ### Selectors -/

/-- The register that a selector chooses for an instruction. -/
def RegisterSelect.resolve (word : Word) : RegisterSelect → Register
  | .r1 => word.r1
  | .r2 => word.r2
  | .r3 => word.r3
  | .ip => .ip

/-- The operand that a selector chooses among the instruction pointer and the sources. -/
def OperandSelect.resolve (ip source1 source2 : Word) : OperandSelect → Word
  | .ip => ip
  | .source1 => source1
  | .source2 => source2
  | .two => 2

/-- The byte address that a selector chooses. -/
def AddressSelect.resolve (ip source1 : Word) : AddressSelect → Word
  | .ip => ip
  | .source1 => source1

/-- The word to store that a selector chooses. -/
def StoreSelect.resolve (ip source2 : Word) : StoreSelect → Word
  | .ip => ip
  | .source2 => source2

/-- The word to write back that a selector chooses. An immediate byte or a byte from memory
is moved to the lane that it is meant for, and the other lane is zero. -/
def ResultSelect.resolve (imm8 : UInt8) (readData alu : Word) : ResultSelect → Word
  | .immediateLow => imm8.toUInt16
  | .immediateHigh => imm8.toUInt16 <<< 8
  | .memoryByte => readData &&& 0x00FF
  | .memoryWord => readData
  | .alu => alu

namespace Bus

/-! ### One micro-cycle -/

/-- The word in the first source register. -/
def source1Data (bus : Bus) (word : Word) (regs : RegisterFile) : Word :=
  regs.get (bus.source1.resolve word)

/-- The word in the second source register. -/
def source2Data (bus : Bus) (word : Word) (regs : RegisterFile) : Word :=
  regs.get (bus.source2.resolve word)

/-- The output of the arithmetic unit. -/
def aluOutput (bus : Bus) (word : Word) (regs : RegisterFile) : AluOutput :=
  let source1 := bus.source1Data word regs
  let source2 := bus.source2Data word regs
  bus.aluOp.compute (bus.operandA.resolve regs.ip source1 source2)
    (bus.operandB.resolve regs.ip source1 source2)

/-- The index of the memory word that is accessed. -/
def memoryIndex (bus : Bus) (word : Word) (regs : RegisterFile) : Nat :=
  Memory.wordIndex (bus.address.resolve regs.ip (bus.source1Data word regs))

/-- The word that a cycle loads: the one that it accesses, also when it is about to be
overwritten, and zero in a cycle that does not access memory. -/
def loadData (bus : Bus) (memory : Memory) (index : Nat) : Except Fault Word :=
  if bus.touchesMemory then memory.read index else .ok 0

/-- The register write that a cycle proposes, given the word that it loads. -/
def registerWrite (bus : Bus) (word : Word) (regs : RegisterFile) (readData : Word) :
    Option RegisterWrite :=
  if bus.writesRegister then
    some {
      register := bus.target.resolve word
      data := bus.result.resolve word.imm8 readData (bus.aluOutput word regs).result
      mask := bus.registerMask }
  else
    none

/-- The memory write that a cycle proposes. -/
def memoryWrite (bus : Bus) (word : Word) (regs : RegisterFile) : Option MemoryWrite :=
  if bus.writesMemory then
    some {
      index := bus.memoryIndex word regs
      data := bus.store.resolve regs.ip (bus.source2Data word regs)
      mask := bus.memoryMask }
  else
    none

/-- Works out one micro-cycle for an instruction word. -/
def drive (bus : Bus) (word : Word) (regs : RegisterFile) (memory : Memory) :
    Except Fault Effects :=
  match bus.loadData memory (bus.memoryIndex word regs) with
  | .error fault => .error fault
  | .ok readData =>
    .ok {
      alu := bus.aluOutput word regs
      readData := readData
      registerWrite := bus.registerWrite word regs readData
      memoryWrite := bus.memoryWrite word regs }

/-- A cycle that does not access memory loads zero. -/
theorem loadData_of_not_touches {bus : Bus} (h : bus.touchesMemory = false) (memory : Memory)
    (index : Nat) : bus.loadData memory index = .ok 0 := by
  simp [loadData, h]

/-- A cycle that accesses memory loads the word that is there. -/
theorem loadData_of_touches {bus : Bus} (h : bus.touchesMemory = true) (memory : Memory)
    (index : Nat) : bus.loadData memory index = memory.read index := by
  simp [loadData, h]

/-- **The effects of a cycle, given the word that it loads.** -/
theorem drive_eq_ok_iff {bus : Bus} {word : Word} {regs : RegisterFile} {memory : Memory}
    {effects : Effects} :
    bus.drive word regs memory = .ok effects ↔
      ∃ readData, bus.loadData memory (bus.memoryIndex word regs) = .ok readData ∧
        effects = ⟨bus.aluOutput word regs, readData, bus.registerWrite word regs readData,
          bus.memoryWrite word regs⟩ := by
  rw [drive]
  split
  · next h => simp [h]
  · next h => simp [h, eq_comm]

end Bus

end Smolisa
