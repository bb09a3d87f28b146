import Smolisa.Proofs.Step

/-!
# From the Micro-Cycles to the Commit

The commit of an instruction looks as if it could fail: it reads the word that it is about to
overwrite, and then it writes, and both of them check the index. It could do harm in that, since by
then every micro-cycle has succeeded. It could also miss something, since a staging has room for a
single memory write. Neither ever happens. The datapath has checked the index in the cycle that
proposed the write, against the same memory, and the cycle that proposes a memory write is the last
one of its instruction and proposes nothing else.

The effects of the micro-cycles are listed here in the order of the cycles, by `Machine.effects`.

## Main results

* `ControlUnit.foldl_effects` — a staging is what the effects of the cycles make of it, one after
  the other.
* `Bus.writesMemory_decode` — only an execute cycle writes memory, with nothing behind it.
* `Machine.commit_cannot_fail` — **the commit cannot fail, and staging drops nothing.**
-/

namespace Smolisa

/-! ### The effects of micro-cycles -/

/-- The effects of the cycles of micro-operations, in order, as far as they succeed. -/
def ControlUnit.effects (word : Word) (memory : Memory) :
    List MicroOp → ControlUnit → Staging → List Effects
  | [], _, _ => []
  | micro :: rest, control, staging =>
    match (control.bus micro).drive word staging.registers memory with
    | .error _ => []
    | .ok e =>
      e :: ControlUnit.effects word memory rest (control.observe micro e.alu) (staging.stage e)

/-- The effects of the micro-cycles of the pending instruction, in order, as far as they succeed.
The first of them are those of the fetch. -/
def Machine.effects (m : Machine) : List Effects :=
  if m.ip &&& 1 ≠ 0 then
    []
  else
    match Bus.fetch.drive 0 m.registers m.memory with
    | .error _ => []
    | .ok fetched =>
      fetched ::
        match m.control.latch fetched.readData m.ip m.config.profile with
        | (.error _, _) => []
        | (.ok op, control) =>
          ControlUnit.effects fetched.readData m.memory op.microProgram control
            ((Staging.start m.registers).stage fetched)

namespace ControlUnit

variable {word : Word} {memory : Memory}

/-- Micro-operations that all succeed have one cycle each, and leave behind what the effects of
these cycles make of the staging, one after the other. -/
theorem foldl_effects {micros : List MicroOp} {control control' : ControlUnit}
    {staging staging' : Staging}
    (h : run word memory micros control staging = (.ok staging', control')) :
    (effects word memory micros control staging).foldl Staging.stage staging = staging' ∧
      (effects word memory micros control staging).length = micros.length := by
  induction micros generalizing control staging with
  | nil =>
      cases h
      exact ⟨rfl, rfl⟩
  | cons micro rest ih =>
      rw [run] at h
      rw [effects]
      cases hdrive : (control.bus micro).drive word staging.registers memory with
      | error fault =>
          rw [hdrive] at h
          cases h
      | ok e =>
          rw [hdrive] at h
          obtain ⟨hfold, hlength⟩ := ih h
          exact ⟨hfold, congrArg (· + 1) hlength⟩

/-- There are no more cycles than micro-operations. -/
theorem length_effects_le (micros : List MicroOp) (control : ControlUnit) (staging : Staging) :
    (effects word memory micros control staging).length ≤ micros.length := by
  induction micros generalizing control staging with
  | nil => exact Nat.le_refl 0
  | cons micro rest ih =>
      rw [effects]
      split
      · exact Nat.zero_le _
      · exact Nat.succ_le_succ (ih _ _)

/-- The effects of every cycle are driven by the bus that the latched opcode has for one of the
micro-operations. -/
theorem drive_of_mem_effects {op : Opcode} {e : Effects} {micros : List MicroOp}
    {control : ControlUnit} {staging : Staging} (hop : control.opcode = some op)
    (he : e ∈ effects word memory micros control staging) :
    ∃ micro ∈ micros, ∃ zero regs, (Bus.decode op micro zero).drive word regs memory = .ok e := by
  induction micros generalizing control staging with
  | nil => exact absurd he List.not_mem_nil
  | cons micro rest ih =>
      rw [effects] at he
      split at he
      · exact absurd he List.not_mem_nil
      · next first hdrive =>
          have hkept : (control.observe micro first.alu).opcode = some op := by
            cases micro <;> exact hop
          rcases List.mem_cons.1 he with rfl | he
          · rw [bus_of_opcode hop] at hdrive
            exact ⟨micro, List.mem_cons_self, _, _, hdrive⟩
          · obtain ⟨micro', hmem, hdriven⟩ := ih hkept he
            exact ⟨micro', List.mem_cons_of_mem _ hmem, hdriven⟩

end ControlUnit

/-- An action with a memory write is that write. -/
theorem Action.eq_of_memoryWrite {action : Action} {w : MemoryWrite}
    (h : action.memoryWrite = some w) : action = .setMemory w := by
  cases action with
  | nothing | setRegister _ => cases h
  | setMemory w' => exact congrArg setMemory (Option.some.inj h)

/-! ### The cycle that writes memory -/

namespace Bus

variable {bus : Bus} {word : Word} {regs : RegisterFile} {memory : Memory} {e : Effects}

/-- A cycle proposes a register write exactly if its bus enables it. -/
theorem isSome_registerWrite_of_drive (h : bus.drive word regs memory = .ok e) :
    e.registerWrite.isSome = true ↔ bus.writesRegister = true := by
  obtain ⟨_, -, rfl⟩ := drive_eq_ok_iff.1 h
  cases hwrites : bus.writesRegister <;> simp [registerWrite, hwrites]

/-- A cycle proposes a memory write exactly if its bus enables it. -/
theorem isSome_memoryWrite_of_drive (h : bus.drive word regs memory = .ok e) :
    e.memoryWrite.isSome = true ↔ bus.writesMemory = true := by
  obtain ⟨_, -, rfl⟩ := drive_eq_ok_iff.1 h
  cases hwrites : bus.writesMemory <;> simp [memoryWrite, hwrites]

/-- **Only an execute cycle writes memory.** It is the only cycle of its micro-program then, and
it writes no register. -/
theorem writesMemory_decode {op : Opcode} {micro : MicroOp} {zero : Bool}
    (h : (decode op micro zero).writesMemory = true) :
    op.microProgram = [.execute] ∧ (decode op micro zero).writesRegister = false := by
  cases micro with
  | fetch | testCondition | conditionalMove => cases h
  | execute => cases op <;> first | exact ⟨rfl, rfl⟩ | cases h

end Bus

/-- A micro-program with a cycle that proposes a memory write has no other cycle, and proposes no
register write. -/
theorem ControlUnit.effects_of_memoryWrite {word : Word} {memory : Memory} {op : Opcode}
    {control : ControlUnit} {staging : Staging} (hop : control.opcode = some op) {e : Effects}
    (he : e ∈ effects word memory op.microProgram control staging) {w : MemoryWrite}
    (hw : e.memoryWrite = some w) :
    effects word memory op.microProgram control staging = [e] ∧ e.registerWrite = none := by
  obtain ⟨micro, -, zero, regs, hdrive⟩ := drive_of_mem_effects hop he
  have hon := (Bus.isSome_memoryWrite_of_drive hdrive).1 (Option.isSome_of_eq_some hw)
  obtain ⟨hprogram, hoff⟩ := Bus.writesMemory_decode hon
  refine ⟨?_, Option.not_isSome_iff_eq_none.1 fun hsome => ?registers⟩
  case registers => cases hoff.symm.trans ((Bus.isSome_registerWrite_of_drive hdrive).1 hsome)
  have hlength : (effects word memory op.microProgram control staging).length ≤
      op.microProgram.length := length_effects_le _ _ _
  rw [hprogram] at hlength he ⊢
  obtain ⟨e', heq⟩ := List.length_eq_one_iff.1
    (Nat.le_antisymm hlength (List.length_pos_of_mem he))
  rw [heq] at he ⊢
  rw [List.mem_singleton.1 he]

namespace Machine

/-! ### The cycles of the pending instruction -/

/-- The effects of an instruction that executes: those of its fetch, and then those of its
micro-program. -/
theorem effects_of_executes {m : Machine} {op : Opcode} (h : m.Executes op) :
    m.effects =
      ⟨AluOp.add.compute m.ip 2, m.pending, some ⟨.ip, m.ip + 2, .both⟩, none⟩ ::
        ControlUnit.effects m.pending m.memory op.microProgram ⟨some m.pending, some op, false⟩
          ⟨m.registers.advance, [⟨.ip, m.ip + 2, .both⟩], none⟩ := by
  have hstage := Staging.stage_fetch m.registers (AluOp.add.compute m.ip 2) m.pending
  rw [effects, if_neg (ip_and_one h.aligned), drive_fetch h.fetch_lt]
  simp only [ControlUnit.latch_of_some h.decodes]
  exact congrArg (_ :: ControlUnit.effects _ _ _ _ ·) hstage

/-- Micro-cycles that succeed are those of an instruction that executes. -/
theorem executes_of_sequence_ok {m : Machine} {retirement : Retirement} {staging : Staging}
    (h : m.sequence.1 = .ok (retirement, staging)) :
    ∃ op, m.Executes op ∧ retirement = ⟨m.ip, m.pending, op.cycles⟩ ∧ staging = m.staged op := by
  rcases m.executes_or_faults with ⟨op, hexec⟩ | ⟨fault, control, hfaults⟩
  · rw [sequence_of_executes hexec] at h
    cases h
    exact ⟨op, hexec, rfl, rfl⟩
  · rw [sequence_of_faults hfaults] at h
    cases h

/-- The staging of an instruction that executes is made by the effects of its cycles: one cycle
for the fetch and one for each micro-operation of its opcode. -/
theorem foldl_effects_of_executes {m : Machine} {op : Opcode} (h : m.Executes op) :
    m.effects.foldl Staging.stage (.start m.registers) = m.staged op ∧
      m.effects.length = op.microProgram.length + 1 := by
  have hdata : ¬ (op.accessesMemory = true ∧ m.memory.capacity ≤ m.dataIndex) :=
    fun ⟨haccess, hle⟩ => Nat.not_lt.2 hle (h.data_lt haccess)
  have hrun := m.run_microProgram_pending op
  rw [if_neg hdata] at hrun
  obtain ⟨hfold, hlength⟩ := ControlUnit.foldl_effects hrun
  rw [effects_of_executes h]
  refine ⟨?_, congrArg (· + 1) hlength⟩
  rw [List.foldl_cons, ← hfold]
  exact congrArg (List.foldl Staging.stage · _) (Staging.stage_fetch _ _ _)

/-- **A cycle that proposes a memory write is the last one of its instruction**, and it proposes
nothing else. In front of it there is the fetch. -/
theorem effects_of_memoryWrite {m : Machine} {op : Opcode} (h : m.Executes op) {e : Effects}
    (he : e ∈ m.effects) {w : MemoryWrite} (hw : e.memoryWrite = some w) :
    e.registerWrite = none ∧
      ∃ fetched, fetched.memoryWrite = none ∧ m.effects = [fetched, e] := by
  rw [effects_of_executes h] at he ⊢
  rcases List.mem_cons.1 he with rfl | he
  · cases hw
  · obtain ⟨heq, hnone⟩ := ControlUnit.effects_of_memoryWrite rfl he hw
    rw [heq]
    exact ⟨hnone, _, rfl, rfl⟩

/-! ### The commit -/

/-- **The commit cannot fail, and staging drops nothing.** A step of a running machine fails exactly
if its micro-cycles do, and with their fault. If they succeed, then it retires the instruction that
they report. The commit of their staging succeeds, and a memory write in it has an index below the
capacity. The staging is made by the effects of the cycles, one after the other; and if one of
these cycles proposes a memory write, it is the last one and proposes no register write, none of the
cycles in front of it proposes a memory write, and so it finds the place for the write empty and
leaves its own write there. -/
theorem commit_cannot_fail {m : Machine} (running : m.status = .running) :
    (∀ fault, m.step.outcome = .error fault ↔ m.sequence.1 = .error fault) ∧
    ∀ retirement staging, m.sequence.1 = .ok (retirement, staging) →
      m.step.outcome = .ok retirement ∧
      (∃ done, ({ m with control := m.sequence.2 }).commit staging retirement = .ok done) ∧
      (∀ w, staging.memoryWrite = some w → w.index < m.memory.capacity) ∧
      (∃ op, m.sequence.2.opcode = some op ∧ m.effects.length = op.microProgram.length + 1) ∧
      m.effects.foldl Staging.stage (.start m.registers) = staging ∧
      ∀ e ∈ m.effects, ∀ w, e.memoryWrite = some w →
        e.registerWrite = none ∧
        ∃ front, m.effects = front ++ [e] ∧ (∀ e' ∈ front, e'.memoryWrite = none) ∧
          (front.foldl Staging.stage (.start m.registers)).memoryWrite = none ∧
          staging.memoryWrite = some w := by
  constructor
  · intro fault
    rcases m.executes_or_faults with ⟨op, hexec⟩ | ⟨fault', control, hfaults⟩
    · rw [step_of_executes running hexec, sequence_of_executes hexec, retirement]
      simp
    · rw [step_of_faults running hfaults, sequence_of_faults hfaults, stop]
      simp only [Except.error.injEq]
  · intro r staging h
    obtain ⟨op, hexec, rfl, rfl⟩ := executes_of_sequence_ok h
    obtain ⟨hfold, hlength⟩ := foldl_effects_of_executes hexec
    refine ⟨?_, ?_, fun w hw => ?_, ⟨op, ?_, hlength⟩, hfold, fun e he w hw => ?_⟩
    · rw [step_of_executes running hexec, retirement]
    · rw [sequence_of_executes hexec]
      exact ⟨_, commit_of_executes hexec⟩
    · exact hexec.index_lt (Action.eq_of_memoryWrite hw)
    · rw [sequence_of_executes hexec, latched]
    · obtain ⟨hnone, fetched, hfetched, heq⟩ := effects_of_memoryWrite hexec he hw
      have hempty : ((Staging.start m.registers).stage fetched).memoryWrite = none := by
        rw [Staging.stage_memoryWrite, hfetched]
        rfl
      refine ⟨hnone, [fetched], heq, by simpa using hfetched, hempty, ?_⟩
      rw [← hfold, heq, List.foldl_cons, List.foldl_cons, List.foldl_nil,
        Staging.stage_memoryWrite, hw]
      rfl

/-- A store through the instruction pointer, which the fetch has moved on already. Its write waits
for the commit with an index below the capacity, put there by the second of two cycles. -/
theorem commit_cannot_fail_store :
    let m : Machine := { new ⟨2, .full⟩ with
      memory := ⟨#[Word.encodeRegister .sb .ip .ip .g0, 0x1234]⟩ }
    m.status = .running ∧ m.step.outcome = .ok ⟨0, Word.encodeRegister .sb .ip .ip .g0, 4⟩ ∧
      ∃ front e, m.effects = front ++ [e] ∧ e.memoryWrite = some ⟨1, 2, .low⟩ ∧
        e.registerWrite = none ∧ ∀ e' ∈ front, e'.memoryWrite = none := by
  intro m
  have hsequence : m.sequence.1 =
      .ok (⟨0, Word.encodeRegister .sb .ip .ip .g0, 4⟩, m.staged .sb) := by decide
  obtain ⟨hout, -, -, -, -, hlast⟩ := (commit_cannot_fail (m := m) rfl).2 _ _ hsequence
  obtain ⟨e, he, hw⟩ : ∃ e ∈ m.effects, e.memoryWrite = some ⟨1, 2, .low⟩ := by decide
  obtain ⟨hnone, front, heq, hfront, -⟩ := hlast e he _ hw
  exact ⟨rfl, hout, front, e, heq, hw, hnone, hfront⟩

end Machine

end Smolisa
