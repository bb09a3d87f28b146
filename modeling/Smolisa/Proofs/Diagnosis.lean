import Smolisa.Proofs.Reachable

/-!
# What a Latched Fault Says

A machine that has stopped keeps the fault that it stopped with, and whoever looks at it later
takes the fault for a description of the machine: where its instruction pointer is, which word
it found there, which address it could not reach. Between the failure and the look at it any
number of calls may have come, steps and runs as well as programs and snapshots that were
rejected. None of them makes the description wrong. `Fault.Describes` is what a fault says of a
machine, in terms of its configuration, its registers and its words alone.

## Main results

* `Machine.Faults.describes` — a fault describes the machine that it is raised by.
* `Machine.latched_fault_is_current` — **a latched fault describes the current machine**,
  whatever has happened since it was raised.
-/

namespace Smolisa

/-- What a fault says of the machine that has stopped with it. It never says that a program was
too long. An instruction pointer in it is the current one: an odd one, or that of a word whose
opcode the datapath profile does not admit. An index in it lies outside the configured memory; it
is that of the instruction, or of the data of a load or a store, whose address is taken after the
advance of the instruction pointer. -/
def Fault.Describes (m : Machine) : Fault → Prop
  | .imageTooLarge _ _ => False
  | .misalignedFetch ip => ip = m.ip ∧ ip.toNat % 2 = 1
  | .unknownOpcode opcode ip =>
    m.config.profile = .datapath ∧ ip = m.ip ∧ ip.toNat % 2 = 0 ∧
    ∃ word, m.memory.read (ip.toNat / 2) = .ok word ∧ opcode.toNat = word.toNat % 16 ∧
      Opcode.decode? .datapath opcode = none
  | .outOfBoundsAddress index capacity =>
    capacity = m.config.memoryWords ∧ capacity = m.memory.capacity ∧
    capacity ≤ index ∧ index ≤ 32767 ∧ m.ip.toNat % 2 = 0 ∧
    (index = m.ip.toNat / 2 ∨
      ∃ word, ∃ op ∈ [Opcode.lb, .sb, .lw, .sw],
        m.memory.read (m.ip.toNat / 2) = .ok word ∧ word.opcodeNibble = op.nibble ∧
        index = (if word.r1 = .ip then m.ip + 2 else m.registers.get word.r1).toNat / 2)

namespace Machine

/-- The data of the pending instruction are addressed by its first register. If that is the
instruction pointer, then the address is that of the next instruction. -/
theorem dataIndex_eq (m : Machine) :
    m.dataIndex =
      (if m.pending.r1 = .ip then m.ip + 2 else m.registers.get m.pending.r1).toNat / 2 := by
  rw [dataIndex, Memory.wordIndex_eq, RegisterFile.get_advance]
  rfl

/-- **A fault describes the machine that it is raised by**, if the machine has the memory that it
is configured with. -/
theorem Faults.describes {m : Machine} {fault : Fault} {control : ControlUnit}
    (h : m.Faults fault control) (hcapacity : m.memory.capacity = m.config.memoryWords) :
    fault.Describes m := by
  cases h with
  | misaligned odd => exact ⟨rfl, odd⟩
  | fetch aligned le_fetch =>
      obtain ⟨hle, hlt⟩ :=
        (Faults.fetch aligned le_fetch : m.Faults _ _).capacity_le_of_outOfBounds
      exact ⟨hcapacity, rfl, hle, Nat.le_of_lt_succ hlt, aligned,
        .inl (Memory.wordIndex_eq m.ip)⟩
  | decode aligned fetch_lt unknown =>
      obtain ⟨hprofile, -⟩ := Word.opcode?_eq_none_iff.1 unknown
      rw [hprofile] at unknown
      exact ⟨hprofile, rfl, aligned, m.pending, read_pending fetch_lt,
        Word.toNat_opcodeNibble _, unknown⟩
  | @data op aligned fetch_lt decodes accesses le_data =>
      obtain ⟨hle, hlt⟩ :=
        (Faults.data aligned fetch_lt decodes accesses le_data).capacity_le_of_outOfBounds
      have hop : op ∈ [Opcode.lb, .sb, .lw, .sw] := Opcode.accessesMemory_iff_mem.1 accesses
      exact ⟨hcapacity, rfl, hle, Nat.le_of_lt_succ hlt, aligned,
        .inr ⟨m.pending, op, hop, read_pending fetch_lt,
          (Opcode.decode?_eq_some_iff.1 decodes).1, m.dataIndex_eq⟩⟩

/-- A machine that meets the condition of a fault fails with it. -/
theorem faults_of_fault? {m : Machine} {fault : Fault} (h : m.fault? = some fault) :
    ∃ control, m.Faults fault control := by
  rcases m.executes_or_faults with ⟨op, hexec⟩ | ⟨fault', control, hfaults⟩
  · cases (fault?_of_executes hexec).symm.trans h
  · cases (fault?_of_faults hfaults).symm.trans h
    exact ⟨control, hfaults⟩

/-- **A latched fault describes the current machine.** Whatever calls a machine has answered
since it was built, accepted ones and rejected ones, if it has stopped with a fault then all that
this fault says is true of its configuration, its registers and its memory as they are now. -/
theorem latched_fault_is_current {config : Config} {m : Machine} (h : m.Reachable config)
    {fault : Fault} (hstop : m.status = .stopped fault) : fault.Describes m := by
  obtain ⟨control, hfaults⟩ := faults_of_fault? (h.fault?_eq hstop)
  refine hfaults.describes ?_
  rw [h.capacity_eq, h.config_eq]

/-- A machine that has failed on the data of a load, and has rejected a program and a snapshot
since then. -/
theorem latched_fault_is_current_load :
    let m : Machine := (new ⟨2, .full⟩).after
      [.load #[Word.encodeImmediate .li .g1 8, Word.encodeRegister .lw .g1 .g2 .g0], .run 5,
        .load #[1, 2, 3], .restore (new ⟨3, .full⟩).snapshot, .step]
    m.status = .stopped (.outOfBoundsAddress 4 2) ∧
      (Fault.outOfBoundsAddress 4 2).Describes m := by
  intro m
  have hstop : m.status = .stopped (.outOfBoundsAddress 4 2) := by decide
  exact ⟨hstop, latched_fault_is_current (Reachable.new.after _) hstop⟩

end Machine

end Smolisa
