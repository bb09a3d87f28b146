import Smolisa.Proofs.Reachable

/-!
# What the Control Unit Has Latched

The control unit is the one part of a machine that changes in the middle of a step, and the only
one that a failing step leaves changed. What it holds at any moment depends on how far the last
step came: a step that fails in front of its fetch leaves the word of an earlier instruction, and
one that fails behind it leaves the word that it failed on. Yet it is always clear what the latched
word is. It stands beside the opcode that it decodes to; and if it decodes to none, then the
machine has stopped for that very reason and the word is the pending one.

Of a stopped machine more can be said. If it were to run again, it would fail with its fault and
leave behind what it has latched already. This is the invariant that carries the word of an
unknown opcode through all the calls that come after the failure.

## Main results

* `Machine.Faults.stopped` — a fault and what it leaves latched are those of the stopped machine.
* `Machine.Reachable.coherent` — what the control unit holds fits the rest of the machine.
* `Machine.control_unit_is_consistent` — **the latched word, its opcode, the zero latch and the
  status are consistent in every reachable machine.**
-/

namespace Smolisa

/-- What a control unit can hold under a profile: nothing, or a word with the opcode that it
decodes to. The zero latch is set behind a conditional opcode only. -/
inductive ControlUnit.Consistent (profile : Profile) : ControlUnit → Prop
  | empty : Consistent profile .empty
  | latched (word : Word) (zero : Bool)
      (conditional : zero = true →
        word.opcode? profile = some .lrz ∨ word.opcode? profile = some .lrnz) :
      Consistent profile ⟨some word, word.opcode? profile, zero⟩

/-- A zero latch that is set was set by a conditional opcode. -/
theorem Opcode.conditional_of_zeroLatch {op : Opcode} {word : Word} {regs : RegisterFile}
    (h : op.zeroLatch word regs = true) : op = .lrz ∨ op = .lrnz := by
  cases op <;> first | exact .inl rfl | exact .inr rfl | cases h

namespace ControlUnit.Consistent

variable {profile : Profile} {c : ControlUnit}

/-- Without an instruction nothing is latched at all. -/
theorem eq_empty (h : c.Consistent profile) (hnone : c.instruction = none) : c = .empty := by
  cases h with
  | empty => rfl
  | latched => cases hnone

/-- The latched opcode is the one that the latched word decodes to. -/
theorem opcode_eq (h : c.Consistent profile) {word : Word} (hword : c.instruction = some word) :
    c.opcode = word.opcode? profile := by
  cases h with
  | empty => cases hword
  | latched =>
      cases hword
      rfl

/-- A set zero latch stands behind a conditional opcode. -/
theorem conditional (h : c.Consistent profile) (hzero : c.zeroLatch = true) :
    c.opcode = some .lrz ∨ c.opcode = some .lrnz := by
  cases h with
  | empty => cases hzero
  | latched _ _ hconditional => exact hconditional hzero

end ControlUnit.Consistent

namespace Machine

/-! ### One step -/

/-- A retired instruction leaves a consistent control unit. -/
theorem Executes.consistent_latched {m : Machine} {op : Opcode} (h : m.Executes op) :
    (m.latched op).Consistent m.config.profile := by
  rw [latched, ← h.decodes]
  refine .latched _ _ fun hzero => ?_
  rw [h.decodes, Option.some.injEq, Option.some.injEq]
  exact Opcode.conditional_of_zeroLatch hzero

/-- A failing instruction leaves a consistent control unit, if it finds one. -/
theorem Faults.consistent {m : Machine} {fault : Fault} {control : ControlUnit}
    (h : m.Faults fault control) (hm : m.control.Consistent m.config.profile) :
    control.Consistent m.config.profile := by
  cases h with
  | misaligned _ => exact hm
  | fetch _ _ => exact hm
  | decode _ _ unknown =>
      rw [← unknown]
      exact .latched _ _ fun hzero => by cases hzero
  | data _ _ decodes _ _ =>
      rw [← decodes]
      exact .latched _ _ fun hzero => by cases hzero

/-- **A fault and what it leaves latched are those of the stopped machine.** The conditions of
faults look at neither the control unit nor the status. -/
theorem Faults.stopped {m : Machine} {fault : Fault} {control : ControlUnit}
    (h : m.Faults fault control) (status : Status) :
    ({ m with control := control, status := status } : Machine).Faults fault control := by
  cases h with
  | misaligned odd => exact .misaligned odd
  | fetch aligned le_fetch => exact .fetch aligned le_fetch
  | decode aligned fetch_lt unknown => exact .decode aligned fetch_lt unknown
  | data aligned fetch_lt decodes accesses le_data =>
      exact .data aligned fetch_lt decodes accesses le_data

/-- A word that a failing step leaves without an opcode is the one that it failed on, or it was
there before. -/
theorem Faults.unknown_of_opcode_none {m : Machine} {fault : Fault} {control : ControlUnit}
    (h : m.Faults fault control) (hnone : control.opcode = none) :
    control = m.control ∨ fault = .unknownOpcode m.pending.opcodeNibble m.ip := by
  cases h with
  | misaligned _ => exact .inl rfl
  | fetch _ _ => exact .inl rfl
  | decode _ _ _ => exact .inr rfl
  | data _ _ _ _ _ => cases hnone

/-- An unknown opcode is that of the pending instruction, and its word stays latched. -/
theorem Faults.latched_of_unknownOpcode {m : Machine} {opcode : UInt8} {ip : Word}
    {control : ControlUnit} (h : m.Faults (.unknownOpcode opcode ip) control) :
    control = ⟨some m.pending, none, false⟩ ∧ opcode = m.pending.opcodeNibble ∧
      m.memory.read (ip.toNat / 2) = .ok m.pending := by
  cases h with
  | decode _ fetch_lt _ => exact ⟨rfl, rfl, read_pending fetch_lt⟩

/-! ### Reachable machines -/

/-- What the control unit of a machine holds fits the rest of the machine. -/
structure Coherent (m : Machine) : Prop where
  consistent : m.control.Consistent m.config.profile
  /-- A latched word without an opcode has stopped the machine. -/
  unknown : ∀ word, m.control.instruction = some word → m.control.opcode = none →
    ∃ opcode ip, m.status = .stopped (.unknownOpcode opcode ip)
  /-- A stopped machine would fail again, and leave what it has latched. -/
  faults : ∀ fault, m.status = .stopped fault → m.Faults fault m.control

/-- A machine that has nothing latched and runs is coherent. -/
theorem coherent_of_empty {m : Machine} (hcontrol : m.control = .empty)
    (running : m.status = .running) : m.Coherent where
  consistent := by
    rw [hcontrol]
    exact .empty
  unknown := by
    intro word hword
    rw [hcontrol] at hword
    cases hword
  faults := by
    intro fault hstop
    cases running.symm.trans hstop

/-- A step leaves a coherent machine coherent. -/
theorem Coherent.step {m : Machine} (h : m.Coherent) : m.step.machine.Coherent := by
  rcases m.step_cases with ⟨_, -, hstep⟩ | ⟨hrun, fault, control, hfaults, hstep⟩ |
    ⟨hrun, op, hexec, hstep⟩
  · rw [hstep]
    exact h
  · rw [hstep]
    refine ⟨hfaults.consistent h.consistent, fun word hword hnone => ?_, fun fault' hstop => ?_⟩
    · rcases hfaults.unknown_of_opcode_none hnone with hsame | hunknown
      · -- The machine was running, so it had no word latched that it could not decode.
        subst hsame
        obtain ⟨_, _, hstop⟩ := h.unknown word hword hnone
        cases hrun.symm.trans hstop
      · exact ⟨_, _, congrArg Status.stopped hunknown⟩
    · cases hstop
      exact hfaults.stopped _
  · rw [hstep]
    refine ⟨hexec.consistent_latched, fun word _ hnone => ?_, fun fault hstop => ?_⟩
    · cases hnone
    · cases hrun.symm.trans hstop

/-- A reachable machine is coherent. -/
theorem Reachable.coherent {config : Config} {m : Machine} (h : m.Reachable config) :
    m.Coherent := by
  refine h.invariant Coherent (coherent_of_empty rfl rfl) (fun _ => Coherent.step) ?_
  intro m call _ hcall
  obtain ⟨_, _, _, -, heq⟩ := exists_of_restarts hcall
  rw [heq]
  exact coherent_of_empty rfl rfl

/-- **The latched word, its opcode, the zero latch and the status are consistent in every
reachable machine.** If no word is latched, then nothing is. A latched word stands beside the
opcode that it decodes to under the configured profile, and a set zero latch beside a conditional
one. There is a latched word without an opcode exactly if the machine has stopped with an unknown
opcode; then the word is the one in memory at the address in the fault, and the opcode in the
fault is its lowest digit. A step that retires an instruction leaves the word of that instruction
latched. -/
theorem control_unit_is_consistent {config : Config} {m : Machine} (h : m.Reachable config) :
    (m.control.instruction = none → m.control = .empty) ∧
    (∀ word, m.control.instruction = some word →
      m.control.opcode = Opcode.decode? config.profile word.opcodeNibble) ∧
    (m.control.zeroLatch = true → m.control.opcode = some .lrz ∨ m.control.opcode = some .lrnz) ∧
    ((∃ word, m.control.instruction = some word ∧ m.control.opcode = none) ↔
      ∃ opcode ip, m.status = .stopped (.unknownOpcode opcode ip)) ∧
    (∀ word opcode ip, m.control.instruction = some word →
      m.status = .stopped (.unknownOpcode opcode ip) →
      m.memory.read (ip.toNat / 2) = .ok word ∧ opcode.toNat = word.toNat % 16) ∧
    ∀ r, m.step.outcome = .ok r → m.step.machine.control.instruction = some r.word := by
  have hm := h.coherent
  rw [← h.config_eq]
  refine ⟨hm.consistent.eq_empty, fun _ => hm.consistent.opcode_eq, hm.consistent.conditional,
    ⟨?_, ?_⟩, ?_, ?_⟩
  · rintro ⟨word, hword, hnone⟩
    exact hm.unknown word hword hnone
  · rintro ⟨opcode, ip, hstop⟩
    obtain ⟨hcontrol, -, -⟩ := (hm.faults _ hstop).latched_of_unknownOpcode
    rw [hcontrol]
    exact ⟨m.pending, rfl, rfl⟩
  · intro word opcode ip hword hstop
    obtain ⟨hcontrol, hopcode, hread⟩ := (hm.faults _ hstop).latched_of_unknownOpcode
    rw [hcontrol] at hword
    cases hword
    exact ⟨hread, hopcode ▸ Word.toNat_opcodeNibble _⟩
  · intro r hr
    obtain ⟨-, op, -, hstep⟩ := step_of_outcome_ok hr
    rw [hstep] at hr ⊢
    cases hr
    rfl

/-- A machine with the datapath profile that has failed on an addition behind a load, and has
rejected a program since then. -/
theorem control_unit_is_consistent_addition :
    let m : Machine := (new ⟨2, .datapath⟩).after
      [.load #[Word.encodeImmediate .li .g1 8, Word.encodeRegister .add .g1 .g2 .g0], .run 5,
        .load #[1, 2, 3], .stepTraced]
    m.status = .stopped (.unknownOpcode 0x8 2) ∧
      m.control.instruction = some (Word.encodeRegister .add .g1 .g2 .g0) ∧
      m.control.opcode = none ∧ m.memory.read 1 = .ok (Word.encodeRegister .add .g1 .g2 .g0) := by
  intro m
  have hm : m.Reachable ⟨2, .datapath⟩ := Reachable.new.after _
  have hstop : m.status = .stopped (.unknownOpcode 0x8 2) := by decide
  have hword : m.control.instruction = some (Word.encodeRegister .add .g1 .g2 .g0) := by decide
  obtain ⟨-, hopcode, -, -, hmemory, -⟩ := control_unit_is_consistent hm
  exact ⟨hstop, hword, hopcode _ hword, (hmemory _ _ _ hword hstop).1⟩

end Machine

end Smolisa
