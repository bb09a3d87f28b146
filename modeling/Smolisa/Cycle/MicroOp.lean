import Smolisa.Cycle.Bus
import Smolisa.Instruction.Opcode

/-!
# Micro-Operations

An instruction takes a fetch cycle and then the micro-program of its opcode: one cycle for
most opcodes, and two for a conditional move, which first tests its condition and then moves.
This module says which micro-operations an opcode runs and which bus each of them puts out.
-/

namespace Smolisa

/-- One micro-cycle of an instruction. -/
inductive MicroOp
  | fetch
  | execute
  | testCondition
  | conditionalMove
  deriving DecidableEq

/-- The micro-cycles that follow the fetch. -/
def Opcode.microProgram : Opcode → List MicroOp
  | .lrz | .lrnz => [.testCondition, .conditionalMove]
  | _ => [.execute]

namespace Bus

/-- The fetch cycle reads the word at the instruction pointer and advances the pointer to the
next instruction. -/
def fetch : Bus :=
  { idle with
    writesRegister := true
    target := .ip
    result := .alu
    address := .ip
    readsMemory := true
    aluOp := .add
    operandA := .ip
    operandB := .two }

/-- The condition test passes the third register through the arithmetic unit, for its zero
flag. -/
def testCondition : Bus :=
  { idle with
    source1 := .r3
    aluOp := .or
    operandA := .source1
    operandB := .source1 }

/-- The conditional move passes the second register to the first, if `enabled`. -/
def conditionalMove (enabled : Bool) : Bus :=
  { idle with
    writesRegister := enabled
    target := .r1
    result := .alu
    source1 := .r2
    aluOp := .or
    operandA := .source1
    operandB := .source1 }

/-- An immediate load sets one lane of the first register. -/
def loadImmediate (lane : ResultSelect) : Bus :=
  { idle with
    writesRegister := true
    target := .r1
    result := lane }

/-- A memory load reads at the address in the first register and sets the second one. -/
def loadMemory (width : ResultSelect) : Bus :=
  { idle with
    writesRegister := true
    target := .r2
    result := width
    source1 := .r1
    address := .source1
    readsMemory := true }

/-- A memory store writes the second register to the address in the first one. -/
def storeMemory (byteOnly : Bool) : Bus :=
  { idle with
    source1 := .r1
    source2 := .r2
    writesMemory := true
    storesByte := byteOnly
    address := .source1
    store := .source2 }

/-- An arithmetic instruction combines the second and the third register into the first. -/
def arithmetic (op : AluOp) : Bus :=
  { idle with
    writesRegister := true
    target := .r1
    result := .alu
    source1 := .r2
    source2 := .r3
    aluOp := op
    operandA := .source1
    operandB := .source2 }

/-- The bus of the execute cycle of an opcode. A conditional move has no execute cycle, so
the bus is idle for it. -/
def execute : Opcode → Bus
  | .li => loadImmediate .immediateLow
  | .liu => loadImmediate .immediateHigh
  | .lb => loadMemory .memoryByte
  | .lw => loadMemory .memoryWord
  | .sb => storeMemory true
  | .sw => storeMemory false
  | .lrz | .lrnz => idle
  | .add => arithmetic .add
  | .sub => arithmetic .sub
  | .and => arithmetic .and
  | .or => arithmetic .or
  | .xor => arithmetic .xor
  | .shl => arithmetic .shl
  | .shr => arithmetic .shr
  | .swb => arithmetic .swb

/-- Whether an opcode moves its register, given the outcome of its condition test. -/
def moves : Opcode → Bool → Bool
  | .lrz, conditionIsZero => conditionIsZero
  | .lrnz, conditionIsZero => !conditionIsZero
  | _, _ => false

/-- The bus that an opcode puts out in a micro-cycle, given the zero flag that its condition
test left behind. -/
def decode (op : Opcode) (micro : MicroOp) (zero : Bool) : Bus :=
  match micro with
  | .fetch => fetch
  | .testCondition => testCondition
  | .conditionalMove => conditionalMove (moves op zero)
  | .execute => execute op

/-- The fetch cycle is the same for every opcode. -/
theorem decode_fetch (op : Opcode) (zero : Bool) : decode op .fetch zero = fetch :=
  rfl

end Bus

end Smolisa
