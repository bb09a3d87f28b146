import Smolisa.Proofs.Action

/-!
# The Ways of a Step

A step of a running machine ends in one of five ways. It retires, or it fails: on an odd
instruction pointer, on an instruction outside memory, on an opcode that the profile does not
admit, or on data outside memory. `Machine.Executes` and `Machine.Faults` say when, in terms
of registers and memory alone, and the theorems here say what each of the five ways does to
the whole machine. Everything about steps and runs of the machine is derived from them. The
micro-cycles do not appear again, but where the commit is looked at on its own.

## Main results

* `Machine.executes_or_faults` — the five ways are all there are.
* `Machine.step_of_executes` — **retirement.** The step performs the action of the
  instruction and reports it.
* `Machine.step_of_faults` — **failure.** The step stops the machine with the fault; only the
  control unit shows how far it came.
* `Machine.step_cases` — the ways of a step of any machine, as one case distinction.

Sequences of steps are given by `Machine.steps` and `Machine.trace`, for use elsewhere.
-/

namespace Smolisa

/-- The alignment check looks at the parity of the address. -/
theorem Word.and_one_eq_zero_iff (w : Word) : w &&& 1 = 0 ↔ w.toNat % 2 = 0 := by
  rw [← UInt16.toNat_inj, UInt16.toNat_and]
  exact iff_of_eq (congrArg (· = 0) (Nat.and_one_is_mod w.toNat))

namespace Machine

/-! ### The instruction that a machine is about to execute -/

/-- The word at the instruction pointer. -/
def pending (m : Machine) : Word :=
  m.memory.get (Memory.wordIndex m.ip)

/-- The index of the word that the pending instruction accesses, if it accesses memory. -/
def dataIndex (m : Machine) : Nat :=
  Memory.wordIndex (m.registers.advance.get m.pending.r1)

/-- The action of the pending instruction, under a given opcode. -/
def action (m : Machine) (op : Opcode) : Action :=
  op.action m.pending m.registers.advance m.memory

/-- The machine executes its pending instruction, under a given opcode. -/
structure Executes (m : Machine) (op : Opcode) : Prop where
  aligned : m.ip.toNat % 2 = 0
  fetch_lt : Memory.wordIndex m.ip < m.memory.capacity
  decodes : m.pending.opcode? m.config.profile = some op
  data_lt : op.accessesMemory = true → m.dataIndex < m.memory.capacity

/-- The machine fails on its pending instruction, with a fault and with what the control unit
holds by then. -/
inductive Faults (m : Machine) : Fault → ControlUnit → Prop
  /-- The instruction pointer is odd. -/
  | misaligned (odd : m.ip.toNat % 2 = 1) : m.Faults (.misalignedFetch m.ip) m.control
  /-- There is no word at the instruction pointer. -/
  | fetch (aligned : m.ip.toNat % 2 = 0)
      (le_fetch : m.memory.capacity ≤ Memory.wordIndex m.ip) :
      m.Faults (.outOfBoundsAddress (Memory.wordIndex m.ip) m.memory.capacity) m.control
  /-- The profile does not admit the opcode. -/
  | decode (aligned : m.ip.toNat % 2 = 0)
      (fetch_lt : Memory.wordIndex m.ip < m.memory.capacity)
      (unknown : m.pending.opcode? m.config.profile = none) :
      m.Faults (.unknownOpcode m.pending.opcodeNibble m.ip) ⟨some m.pending, none, false⟩
  /-- There is no word at the address of the data. -/
  | data {op : Opcode} (aligned : m.ip.toNat % 2 = 0)
      (fetch_lt : Memory.wordIndex m.ip < m.memory.capacity)
      (decodes : m.pending.opcode? m.config.profile = some op)
      (accesses : op.accessesMemory = true) (le_data : m.memory.capacity ≤ m.dataIndex) :
      m.Faults (.outOfBoundsAddress m.dataIndex m.memory.capacity)
        ⟨some m.pending, some op, false⟩

/-- A machine executes its pending instruction or fails on it. -/
theorem executes_or_faults (m : Machine) :
    (∃ op, m.Executes op) ∨ ∃ fault control, m.Faults fault control := by
  rcases Nat.mod_two_eq_zero_or_one m.ip.toNat with aligned | odd
  · rcases Nat.lt_or_ge (Memory.wordIndex m.ip) m.memory.capacity with hlt | hle
    · cases hop : m.pending.opcode? m.config.profile with
      | none => exact .inr ⟨_, _, .decode aligned hlt hop⟩
      | some op =>
          by_cases hdata : op.accessesMemory = true → m.dataIndex < m.memory.capacity
          · exact .inl ⟨op, aligned, hlt, hop, hdata⟩
          · obtain ⟨haccess, hle⟩ := Classical.not_imp.1 hdata
            exact .inr ⟨_, _, .data aligned hlt hop haccess (Nat.not_lt.1 hle)⟩
    · exact .inr ⟨_, _, .fetch aligned hle⟩
  · exact .inr ⟨_, _, .misaligned odd⟩

/-- An instruction that executes stores below the capacity. -/
theorem Executes.index_lt {m : Machine} {op : Opcode} (h : m.Executes op) {w : MemoryWrite}
    (hw : m.action op = .setMemory w) : w.index < m.memory.capacity := by
  obtain ⟨haccess, hindex⟩ := Opcode.action_eq_setMemory hw
  rw [hindex]
  exact h.data_lt haccess

/-! ### The machine after a retired instruction -/

/-- What the control unit holds after the pending instruction, under a given opcode. -/
def latched (m : Machine) (op : Opcode) : ControlUnit :=
  ⟨some m.pending, some op, op.zeroLatch m.pending m.registers.advance⟩

/-- The machine after its pending instruction has retired under a given opcode. -/
def retire (m : Machine) (op : Opcode) : Machine :=
  { m with
    registers := (m.action op).registers m.registers.advance
    memory := (m.action op).memory m.memory
    control := m.latched op
    stats := m.stats.retire op.cycles }

/-- What an observer sees of a retirement of the pending instruction under a given opcode. -/
def report (m : Machine) (op : Opcode) : List Event :=
  [.fetched m.ip m.pending] ++
  ((m.action op).store m.memory).toList.map .memoryWritten ++
  .registerWritten ⟨.ip, (m.retire op).ip, .both⟩ ::
    ((m.action op).sideWrite m.registers.advance).toList.map .registerWritten ++
  [.retired m.ip op.cycles]

/-! ### The micro-cycles of the pending instruction -/

/-- The staging after all micro-cycles of the pending instruction, under a given opcode. -/
def staged (m : Machine) (op : Opcode) : Staging where
  registers := (m.action op).registers m.registers.advance
  registerWrites :=
    ⟨.ip, (m.retire op).ip, .both⟩ :: ((m.action op).sideWrite m.registers.advance).toList
  memoryWrite := (m.action op).memoryWrite

/-- An even instruction pointer passes the check that comes before the fetch. -/
theorem ip_and_one {m : Machine} (aligned : m.ip.toNat % 2 = 0) : ¬ m.ip &&& 1 ≠ 0 :=
  not_not_intro ((Word.and_one_eq_zero_iff _).2 aligned)

/-- With a word at the instruction pointer, the fetch cycle loads it. -/
theorem drive_fetch {m : Machine} (fetch_lt : Memory.wordIndex m.ip < m.memory.capacity) :
    Bus.fetch.drive 0 m.registers m.memory =
      .ok ⟨AluOp.add.compute m.ip 2, m.pending, some ⟨.ip, m.ip + 2, .both⟩, none⟩ := by
  rw [Bus.drive_fetch, if_neg]
  · rfl
  · exact Nat.not_le.2 fetch_lt

/-- A word that does not decode ends the micro-cycles. -/
theorem sequence_of_unknown {m : Machine} (aligned : m.ip.toNat % 2 = 0)
    (fetch_lt : Memory.wordIndex m.ip < m.memory.capacity)
    (unknown : m.pending.opcode? m.config.profile = none) :
    m.sequence =
      (.error (.unknownOpcode m.pending.opcodeNibble m.ip), ⟨some m.pending, none, false⟩) := by
  rw [sequence, if_neg (ip_and_one aligned), drive_fetch fetch_lt]
  simp only [ControlUnit.latch_of_none unknown]

/-- The micro-program of a decoded opcode stages the action of the instruction, or it fails on
its data. -/
theorem run_microProgram_pending (m : Machine) (op : Opcode) :
    ControlUnit.run m.pending m.memory op.microProgram ⟨some m.pending, some op, false⟩
        ⟨m.registers.advance, [⟨.ip, m.ip + 2, .both⟩], none⟩ =
      (if op.accessesMemory = true ∧ m.memory.capacity ≤ m.dataIndex then
          .error (.outOfBoundsAddress m.dataIndex m.memory.capacity)
        else
          .ok (m.staged op),
        m.latched op) := by
  have hdrive := Bus.drive_lastBus op m.pending m.registers.advance m.memory
  rw [ControlUnit.run_microProgram]
  refine congrArg (·, m.latched op) ?_
  by_cases hdata : op.accessesMemory = true ∧ m.memory.capacity ≤ m.dataIndex
  · rw [if_pos hdata]
    exact congrArg (Except.map _) (hdrive.trans (if_pos hdata))
  · rw [if_neg hdata]
    refine (congrArg (Except.map _) (hdrive.trans (if_neg hdata))).trans ?_
    exact congrArg Except.ok (Staging.stage_action m.registers (m.action op) _ _)

/-- A word that decodes has its action staged, or its micro-program fails on the data. -/
theorem sequence_of_decodes {m : Machine} {op : Opcode} (aligned : m.ip.toNat % 2 = 0)
    (fetch_lt : Memory.wordIndex m.ip < m.memory.capacity)
    (decodes : m.pending.opcode? m.config.profile = some op) :
    m.sequence =
      (if op.accessesMemory = true ∧ m.memory.capacity ≤ m.dataIndex then
          .error (.outOfBoundsAddress m.dataIndex m.memory.capacity)
        else
          .ok (⟨m.ip, m.pending, op.cycles⟩, m.staged op),
        m.latched op) := by
  have hstage : (Staging.start m.registers).stage
      ⟨AluOp.add.compute m.ip 2, m.pending, some ⟨.ip, m.ip + 2, .both⟩, none⟩ =
        ⟨m.registers.advance, [⟨.ip, m.ip + 2, .both⟩], none⟩ :=
    Staging.stage_fetch _ _ _
  rw [sequence, if_neg (ip_and_one aligned), drive_fetch fetch_lt]
  simp only [ControlUnit.latch_of_some decodes, hstage, run_microProgram_pending]
  by_cases hdata : op.accessesMemory = true ∧ m.memory.capacity ≤ m.dataIndex
  · rw [if_pos hdata, if_pos hdata]
  · rw [if_neg hdata, if_neg hdata]

/-- The micro-cycles of an instruction that executes stage its action. -/
theorem sequence_of_executes {m : Machine} {op : Opcode} (h : m.Executes op) :
    m.sequence = (.ok (⟨m.ip, m.pending, op.cycles⟩, m.staged op), m.latched op) := by
  rw [sequence_of_decodes h.aligned h.fetch_lt h.decodes, if_neg]
  exact fun ⟨haccess, hle⟩ => Nat.not_lt.2 hle (h.data_lt haccess)

/-- The micro-cycles of an instruction that fails end with its fault. -/
theorem sequence_of_faults {m : Machine} {fault : Fault} {control : ControlUnit}
    (h : m.Faults fault control) : m.sequence = (.error fault, control) := by
  cases h with
  | misaligned odd =>
      have hodd : m.ip &&& 1 ≠ 0 := by
        rw [Ne, Word.and_one_eq_zero_iff, odd]
        decide
      rw [sequence, if_pos hodd]
  | fetch aligned le_fetch =>
      rw [sequence, if_neg (ip_and_one aligned), Bus.drive_fetch, if_pos]
      · rfl
      · exact le_fetch
  | decode aligned fetch_lt unknown =>
      exact sequence_of_unknown aligned fetch_lt unknown
  | data aligned fetch_lt decodes accesses le_data =>
      rw [sequence_of_decodes aligned fetch_lt decodes, if_pos ⟨accesses, le_data⟩, latched,
        Opcode.zeroLatch_of_accessesMemory accesses]

/-! ### The ways of a step -/

/-- The result of a step that retires the pending instruction under a given opcode. -/
def retirement (m : Machine) (op : Opcode) : StepResult where
  outcome := .ok ⟨m.ip, m.pending, op.cycles⟩
  changed := (m.retire op).registers != m.registers || (m.retire op).memory != m.memory
  events := m.report op
  machine := m.retire op

/-- The commit of an instruction that executes succeeds, and leaves the machine retired. -/
theorem commit_of_executes {m : Machine} {op : Opcode} (h : m.Executes op) :
    ({ m with control := m.latched op }).commit (m.staged op) ⟨m.ip, m.pending, op.cycles⟩ =
      .ok ⟨m.retire op, (m.retirement op).changed, m.report op⟩ := by
  have hmemory : m.memory.commit (m.staged op).memoryWrite =
      .ok ⟨(m.retire op).memory, (m.retire op).memory != m.memory,
        (m.action op).store m.memory⟩ :=
    Memory.commit_action fun _ => h.index_lt
  rw [commit, hmemory]
  rfl

/-- **Retirement.** A running machine that executes its pending instruction performs and
reports it. -/
theorem step_of_executes {m : Machine} {op : Opcode} (hm : m.status = .running)
    (h : m.Executes op) : m.step = m.retirement op :=
  step_of_commit_ok hm (sequence_of_executes h) (commit_of_executes h)

/-- **Failure.** A running machine that fails on its pending instruction stops with the fault,
and nothing else happens to it but that its control unit keeps what it latched. -/
theorem step_of_faults {m : Machine} {fault : Fault} {control : ControlUnit}
    (hm : m.status = .running) (h : m.Faults fault control) :
    m.step = ({ m with control := control }).stop fault :=
  step_of_sequence_error hm (sequence_of_faults h)

/-- **The ways of a step.** A stopped machine repeats its fault; a running one fails on its
pending instruction or retires it. -/
theorem step_cases (m : Machine) :
    (∃ fault, m.status = .stopped fault ∧ m.step = ⟨.error fault, false, [], m⟩) ∨
    (m.status = .running ∧ ∃ fault control, m.Faults fault control ∧
      m.step = ({ m with control := control }).stop fault) ∨
    (m.status = .running ∧ ∃ op, m.Executes op ∧ m.step = m.retirement op) := by
  cases hm : m.status with
  | stopped fault => exact .inl ⟨fault, rfl, step_of_stopped hm⟩
  | running =>
      rcases m.executes_or_faults with ⟨op, h⟩ | ⟨fault, control, h⟩
      · exact .inr (.inr ⟨rfl, op, h, step_of_executes hm h⟩)
      · exact .inr (.inl ⟨rfl, fault, control, h, step_of_faults hm h⟩)

/-- A step that does not fail retires the pending instruction of a running machine. -/
theorem step_of_outcome_ok {m : Machine} {r : Retirement} (h : m.step.outcome = .ok r) :
    m.status = .running ∧ ∃ op, m.Executes op ∧ m.step = m.retirement op := by
  rcases m.step_cases with ⟨_, -, hstep⟩ | ⟨-, _, _, -, hstep⟩ | hretires
  · rw [hstep] at h
    cases h
  · rw [hstep] at h
    cases h
  · exact hretires

/-- No step changes the configuration of a machine. -/
theorem config_step (m : Machine) : m.step.machine.config = m.config := by
  rcases m.step_cases with ⟨_, -, hstep⟩ | ⟨-, _, _, -, hstep⟩ | ⟨-, _, -, hstep⟩
  · rw [hstep]
  · rw [hstep]
    rfl
  · rw [hstep]
    rfl

/-- No step changes how many words a memory has. -/
theorem capacity_step (m : Machine) : m.step.machine.memory.capacity = m.memory.capacity := by
  rcases m.step_cases with ⟨_, -, hstep⟩ | ⟨-, _, _, -, hstep⟩ | ⟨-, op, -, hstep⟩
  · rw [hstep]
  · rw [hstep]
    rfl
  · rw [hstep]
    exact Action.capacity_memory _ _

/-! ### Steps in a row -/

/-- The machine after a number of steps. -/
def steps (m : Machine) : Nat → Machine
  | 0 => m
  | n + 1 => (m.steps n).step.machine

/-- What an observer sees of a number of steps, in order. -/
def trace (m : Machine) : Nat → List Event
  | 0 => []
  | n + 1 => m.trace n ++ (m.steps n).step.events

end Machine

end Smolisa
