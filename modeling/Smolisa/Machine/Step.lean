import Smolisa.Cycle.Staging
import Smolisa.Machine.Basic
import Smolisa.Machine.Event

/-!
# One Step

A step executes one instruction. It fetches the word at the instruction pointer, decodes it,
and works through the micro-program of its opcode, all against a staging of the machine's
registers. Only when every micro-cycle has succeeded are the staged writes committed: first
the memory write, then the registers, then the counters. A step that fails on the way changes
nothing that a program can see; it stops the machine with the fault.

## Main results

* `Machine.step_of_stopped` — a stopped machine repeats its fault and does nothing.
* `Machine.step_of_sequence_error` and `Machine.step_of_commit_ok` — the ways in which a step
  of a running machine ends, given how its micro-cycles went.
-/

namespace Smolisa

/-- What one step of a machine reports, and the machine after it. -/
structure StepResult where
  /-- The instruction that retired, or the fault. -/
  outcome : Except Fault Retirement
  /-- Whether an instruction retired that changed a register or a memory word. -/
  changed : Bool
  /-- What an observer saw, in order. -/
  events : List Event
  /-- The machine after the step. -/
  machine : Machine

/-- What the commit of a memory write leaves behind. -/
structure MemoryCommit where
  /-- The memory afterwards. -/
  memory : Memory
  /-- Whether a word changed. -/
  changed : Bool
  /-- The write as an observer sees it, with the whole word as its data. -/
  write : Option MemoryWrite

/-- What the commit of an instruction leaves behind. -/
structure MachineCommit where
  /-- The machine afterwards. -/
  machine : Machine
  /-- Whether a register or a memory word changed. -/
  changed : Bool
  /-- What an observer saw, in order. -/
  events : List Event

/-- Performs the memory write of an instruction, if it has one. -/
def Memory.commit (memory : Memory) : Option MemoryWrite → Except Fault MemoryCommit
  | none => .ok ⟨memory, false, none⟩
  | some w =>
    match memory.read w.index with
    | .error fault => .error fault
    | .ok before =>
      let after := w.mask.merge before w.data
      match memory.write w.index after .both with
      | .error fault => .error fault
      | .ok memory => .ok ⟨memory, before != after, some { w with data := after }⟩

/-- Works through micro-operations in order and stages their writes. Each cycle sees the
writes staged before it. -/
def ControlUnit.run (word : Word) (memory : Memory) :
    List MicroOp → ControlUnit → Staging → Except Fault Staging × ControlUnit
  | [], control, staging => (.ok staging, control)
  | micro :: rest, control, staging =>
    match (control.bus micro).drive word staging.registers memory with
    | .error fault => (.error fault, control)
    | .ok effects =>
      ControlUnit.run word memory rest (control.observe micro effects.alu)
        (staging.stage effects)

namespace Machine

/-- Works through the micro-cycles of one instruction, from the fetch on. The control unit
keeps what it latched even if a later cycle fails. -/
def sequence (m : Machine) : Except Fault (Retirement × Staging) × ControlUnit :=
  let ip := m.ip
  if ip &&& 1 ≠ 0 then
    (.error (.misalignedFetch ip), m.control)
  else
    match Bus.fetch.drive 0 m.registers m.memory with
    | .error fault => (.error fault, m.control)
    | .ok fetched =>
      let word := fetched.readData
      match m.control.latch word ip m.config.profile with
      | (.error fault, control) => (.error fault, control)
      | (.ok op, control) =>
        let staging := (Staging.start m.registers).stage fetched
        match control.run word m.memory op.microProgram staging with
        | (.error fault, control) => (.error fault, control)
        | (.ok staging, control) => (.ok (⟨ip, word, op.cycles⟩, staging), control)

/-- Makes the staged writes of an instruction effective and counts it. Only the memory write
can fail, and it comes first. -/
def commit (m : Machine) (staging : Staging) (retirement : Retirement) :
    Except Fault MachineCommit :=
  match m.memory.commit staging.memoryWrite with
  | .error fault => .error fault
  | .ok stored =>
    .ok {
      machine := { m with
        registers := staging.registers
        memory := stored.memory
        stats := m.stats.retire retirement.cycles }
      changed := staging.registers != m.registers || stored.changed
      events :=
        [.fetched retirement.ip retirement.word] ++
        stored.write.toList.map .memoryWritten ++
        staging.registerWrites.map .registerWritten ++
        [.retired retirement.ip retirement.cycles] }

/-- Stops a machine with a fault. -/
def stop (m : Machine) (fault : Fault) : StepResult where
  outcome := .error fault
  changed := false
  events := [.faultRaised fault]
  machine := { m with status := .stopped fault }

/-- Executes one instruction. -/
def step (m : Machine) : StepResult :=
  match m.status with
  | .stopped fault => ⟨.error fault, false, [], m⟩
  | .running =>
    match m.sequence with
    | (.error fault, control) => ({ m with control := control }).stop fault
    | (.ok (retirement, staging), control) =>
      match ({ m with control := control }).commit staging retirement with
      | .error fault => ({ m with control := control }).stop fault
      | .ok done => ⟨.ok retirement, done.changed, done.events, done.machine⟩

/-- A stopped machine repeats its fault and does nothing. -/
theorem step_of_stopped {m : Machine} {fault : Fault} (h : m.status = .stopped fault) :
    m.step = ⟨.error fault, false, [], m⟩ := by
  simp [step, h]

/-- A running machine stops with the fault of its micro-cycles. -/
theorem step_of_sequence_error {m : Machine} {fault : Fault} {control : ControlUnit}
    (hm : m.status = .running) (h : m.sequence = (.error fault, control)) :
    m.step = ({ m with control := control }).stop fault := by
  simp [step, hm, h]

/-- A running machine whose staged writes are committed reports the commit. -/
theorem step_of_commit_ok {m : Machine} {retirement : Retirement} {staging : Staging}
    {control : ControlUnit} {done : MachineCommit} (hm : m.status = .running)
    (h : m.sequence = (.ok (retirement, staging), control))
    (hc : ({ m with control := control }).commit staging retirement = .ok done) :
    m.step = ⟨.ok retirement, done.changed, done.events, done.machine⟩ := by
  rw [step]
  split
  · simp_all
  · simp only [h, hc]

end Machine

end Smolisa
