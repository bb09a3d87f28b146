import Smolisa.Cycle.MicroOp
import Smolisa.Fault
import Smolisa.Instruction.Encoding

/-!
# The Control Unit

The control unit latches the instruction word that a fetch brought in, decodes it, and puts
out the bus of each micro-cycle. Between the two cycles of a conditional move it remembers
one bit, the zero flag of the condition test.

## Main results

* `ControlUnit.bus_fetch` — the fetch bus does not depend on what is latched.
* `ControlUnit.bus_of_opcode` — with an opcode latched, the bus is the decoded one.
* `ControlUnit.snd_latch` — latching overwrites everything that was remembered.
* `ControlUnit.latch_of_some`, `ControlUnit.latch_of_none` — what latching a word gives.
-/

namespace Smolisa

/-- The state of the control unit. -/
structure ControlUnit where
  /-- The instruction word latched last. -/
  instruction : Option Word
  /-- The opcode that the word decoded to, if it did. -/
  opcode : Option Opcode
  /-- The zero flag of the last condition test. -/
  zeroLatch : Bool
  deriving DecidableEq

namespace ControlUnit

/-- The control unit after a reset: nothing is latched. -/
def empty : ControlUnit :=
  ⟨none, none, false⟩

/-- Latches the word fetched at `ip` and decodes it. The word stays latched also if the
profile does not admit its opcode, and the zero flag of an earlier test is dropped. -/
def latch (c : ControlUnit) (word ip : Word) (profile : Profile) :
    Except Fault Opcode × ControlUnit :=
  let opcode := word.opcode? profile
  let result :=
    match opcode with
    | some op => .ok op
    | none => .error (.unknownOpcode word.opcodeNibble ip)
  (result, { c with instruction := some word, opcode := opcode, zeroLatch := false })

/-- The bus that the control unit puts out in a micro-cycle. Without an opcode every cycle
but the fetch is idle. -/
def bus (c : ControlUnit) (micro : MicroOp) : Bus :=
  match micro, c.opcode with
  | .fetch, _ => .fetch
  | _, some op => .decode op micro c.zeroLatch
  | _, none => .idle

/-- Takes note of what the arithmetic unit put out in a micro-cycle: the condition test
leaves its zero flag behind, and the other cycles leave nothing. -/
def observe (c : ControlUnit) (micro : MicroOp) (out : AluOutput) : ControlUnit :=
  match micro with
  | .testCondition => { c with zeroLatch := out.zero }
  | _ => c

/-- The fetch bus does not depend on what is latched. -/
@[simp] theorem bus_fetch (c : ControlUnit) : c.bus .fetch = .fetch := by
  simp [bus]

/-- With an opcode latched, the bus is the decoded one. -/
theorem bus_of_opcode {c : ControlUnit} {op : Opcode} (h : c.opcode = some op)
    (micro : MicroOp) : c.bus micro = .decode op micro c.zeroLatch := by
  cases micro with
  | fetch => rw [bus_fetch, Bus.decode_fetch]
  | execute | testCondition | conditionalMove => simp [bus, h]

/-- Without an opcode every cycle but the fetch is idle. -/
theorem bus_of_no_opcode {c : ControlUnit} (h : c.opcode = none) {micro : MicroOp}
    (hm : micro ≠ .fetch) : c.bus micro = .idle := by
  cases micro <;> simp_all [bus]

/-- Latching overwrites everything that was remembered. -/
@[simp] theorem snd_latch (c : ControlUnit) (word ip : Word) (profile : Profile) :
    (c.latch word ip profile).2 = ⟨some word, word.opcode? profile, false⟩ :=
  rfl

/-- A word that the profile admits is latched together with its opcode. -/
theorem latch_of_some {word : Word} {profile : Profile} {op : Opcode}
    (h : word.opcode? profile = some op) (c : ControlUnit) (ip : Word) :
    c.latch word ip profile = (.ok op, ⟨some word, some op, false⟩) := by
  simp [latch, h]

/-- A word that the profile does not admit is latched without an opcode. -/
theorem latch_of_none {word : Word} {profile : Profile} (h : word.opcode? profile = none)
    (c : ControlUnit) (ip : Word) :
    c.latch word ip profile =
      (.error (.unknownOpcode word.opcodeNibble ip), ⟨some word, none, false⟩) := by
  simp [latch, h]

end ControlUnit

end Smolisa
