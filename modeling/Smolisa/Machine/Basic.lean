import Smolisa.Cycle.ControlUnit
import Smolisa.Machine.Stats
import Smolisa.Memory
import Smolisa.Register.File

/-!
# The Machine

A machine is a register file, a main memory and a control unit, together with its
configuration, its counters and its status: running, or stopped by a fault. A stopped machine
stays stopped until it is reset, or until a program or a snapshot is put into it.

This module holds the life cycle of a machine between steps: it is built from its
configuration, given a program image, reset, and copied out to and back from a snapshot.

## Main results

* `Machine.load_eq_ok_iff` and `Machine.restore_eq_ok_iff` — what a machine is after a load
  or a restore, given what its memory becomes.
-/

namespace Smolisa

/-- The configuration of a machine, fixed when it is built. -/
structure Config where
  /-- The number of words of main memory. -/
  memoryWords : Nat := Memory.defaultCapacity
  /-- The part of the instruction set that the machine implements. -/
  profile : Profile := .full
  deriving DecidableEq, Inhabited

/-- Whether a machine runs or has stopped. -/
inductive Status
  /-- The machine executes instructions. -/
  | running
  /-- The machine has stopped with a fault, which every further step reports again. -/
  | stopped (fault : Fault)
  deriving DecidableEq, Inhabited

/-- A machine. -/
structure Machine where
  config : Config
  registers : RegisterFile
  memory : Memory
  control : ControlUnit
  status : Status
  stats : Stats
  deriving DecidableEq

/-- The layout of a snapshot. -/
inductive SnapshotVersion
  | v1
  deriving DecidableEq

/-- The number by which a layout is recorded. -/
def SnapshotVersion.number : SnapshotVersion → UInt16
  | .v1 => 1

/-- The layout recorded by a number, if it is a known one. -/
def SnapshotVersion.ofNumber? (n : UInt16) : Option SnapshotVersion :=
  if n = SnapshotVersion.v1.number then some .v1 else none

/-- The part of a machine that programs see and leave behind: registers, memory and
counters. -/
structure Snapshot where
  version : SnapshotVersion
  registers : RegisterFile
  memory : Memory
  stats : Stats
  deriving DecidableEq

namespace Machine

/-- A machine as it is built: everything is zero and nothing is latched. -/
def new (config : Config) : Machine where
  config := config
  registers := .zero
  memory := .zero config.memoryWords
  control := .empty
  status := .running
  stats := .zero

/-- Starts a machine afresh on the memory that it has. -/
def reset (m : Machine) : Machine :=
  { m with registers := .zero, control := .empty, status := .running, stats := .zero }

/-- Puts a program image into memory and starts the machine afresh. An image that does not
fit is rejected. -/
def load (m : Machine) (image : Array Word) : Except Fault Machine :=
  match m.memory.load image with
  | .error fault => .error fault
  | .ok memory => .ok ({ m with memory := memory }).reset

/-- A machine that is built with a program image in its memory. -/
def ofImage (config : Config) (image : Array Word) : Except Fault Machine :=
  (new config).load image

/-- The instruction pointer. -/
def ip (m : Machine) : Word :=
  m.registers.ip

/-- Copies out registers, memory and counters. -/
def snapshot (m : Machine) : Snapshot where
  version := .v1
  registers := m.registers
  memory := m.memory
  stats := m.stats

/-- Puts the registers, the memory and the counters of a snapshot into the machine and sets
it running with nothing latched. A memory smaller than the machine's is followed by zeros;
one that is larger is rejected. -/
def restore (m : Machine) (s : Snapshot) : Except Fault Machine :=
  match m.memory.load s.memory.words with
  | .error fault => .error fault
  | .ok memory =>
    .ok { m with
      registers := s.registers
      memory := memory
      control := .empty
      status := .running
      stats := s.stats }

/-- A machine after a load: all that is left of it is its configuration. -/
theorem load_eq_ok_iff {m m' : Machine} {image : Array Word} :
    m.load image = .ok m' ↔
      ∃ memory, m.memory.load image = .ok memory ∧
        m' = ⟨m.config, .zero, memory, .empty, .running, .zero⟩ := by
  rw [load]
  split
  · next h => simp [h]
  · next h => simp [h, reset, eq_comm]

/-- A machine after a restore: all that is left of it is its configuration. -/
theorem restore_eq_ok_iff {m m' : Machine} {s : Snapshot} :
    m.restore s = .ok m' ↔
      ∃ memory, m.memory.load s.memory.words = .ok memory ∧
        m' = ⟨m.config, s.registers, memory, .empty, .running, s.stats⟩ := by
  rw [restore]
  split
  · next h => simp [h]
  · next h => simp [h, eq_comm]

end Machine

end Smolisa
