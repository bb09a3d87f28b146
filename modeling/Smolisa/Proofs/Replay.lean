import Smolisa.Proofs.Run

/-!
# The Trace as a Redo Log

An observer of a machine who knows what registers and memory held at first, and repeats every
write that the trace reports, has at each moment what the machine has. No write of the machine
is missing from its trace, and none is there that did not happen. This holds although the
trace is not a list of what the micro-cycles did: the advance of the instruction pointer and a
write of the instruction to it are reported as one, and a store to one byte is reported with
the whole word.

The trace of a number of steps is a sequence of blocks, one for each retired instruction in the
order of their retirement, and possibly a fault at its end, which is the one that stopped the
machine. That is shown for one step first and then for any number of them, by induction.

## Main results

* `Machine.replay_report` and `Machine.explains_report` — the replay of one instruction.
* `Machine.exists_reportedAs` — the form of a trace: one block for each retirement, and the fault
  that stopped the machine.
* `Machine.replay_trace` — the replay of a trace.
* `Machine.trace_is_redo_log` — **the trace is a complete redo log.**
-/

namespace Smolisa

/-! ### Replaying events -/

/-- What a machine holds in registers and memory. -/
structure Contents where
  registers : RegisterFile
  memory : Memory

/-- What a machine holds in registers and memory. -/
def Machine.contents (m : Machine) : Contents :=
  ⟨m.registers, m.memory⟩

namespace Contents

/-- Repeats the write that an event reports, through its mask. The other events change
nothing. -/
def redo (c : Contents) : Event → Except Fault Contents
  | .registerWritten w => .ok { c with registers := c.registers.write w.register w.data w.mask }
  | .memoryWritten w => (c.memory.write w.index w.data w.mask).map ({ c with memory := · })
  | .fetched _ _ | .retired _ _ | .faultRaised _ => .ok c

/-- Repeats a list of events in order. -/
def replay (c : Contents) (events : List Event) : Except Fault Contents :=
  events.foldlM redo c

/-- The contents explain a list of events: wherever it reports a fetch, the replay of the
events in front of it has the instruction pointer and the word that were fetched. -/
def Explains (c : Contents) (events : List Event) : Prop :=
  ∀ front ip word rest, events = front ++ .fetched ip word :: rest →
    ∃ c', c.replay front = .ok c' ∧ c'.registers.ip = ip ∧
      c'.memory.read (ip.toNat / 2) = .ok word

theorem replay_cons {c c' : Contents} {event : Event} (h : c.redo event = .ok c')
    (rest : List Event) : c.replay (event :: rest) = c'.replay rest := by
  rw [replay, List.foldlM_cons, h]
  rfl

/-- A replay can be taken up where another one ended. -/
theorem replay_append {c c' : Contents} {first : List Event} (h : c.replay first = .ok c')
    (second : List Event) : c.replay (first ++ second) = c'.replay second := by
  rw [replay] at h
  rw [replay, List.foldlM_append, h]
  rfl

/-- Events without a fetch need no explanation. -/
theorem explains_of_not_mem {c : Contents} {events : List Event}
    (h : ∀ ip word, .fetched ip word ∉ events) : c.Explains events := by
  intro front ip word rest heq
  refine absurd ?_ (h ip word)
  rw [heq]
  exact List.mem_append_right front List.mem_cons_self

/-- Contents explain two lists in a row if they explain the first, and what its replay leads
to explains the second. -/
theorem Explains.append {c c' : Contents} {first second : List Event} (hfirst : c.Explains first)
    (hreplay : c.replay first = .ok c') (hsecond : c'.Explains second) :
    c.Explains (first ++ second) := by
  intro front ip word rest heq
  have later (back : List Event) (hfront : front = first ++ back)
      (hback : second = back ++ .fetched ip word :: rest) :
      ∃ c', c.replay front = .ok c' ∧ c'.registers.ip = ip ∧
        c'.memory.read (ip.toNat / 2) = .ok word := by
    rw [hfront, replay_append hreplay]
    exact hsecond back ip word rest hback
  rcases List.append_eq_append_iff.1 heq with ⟨back, hfront, hback⟩ | ⟨mid, hmid, hrest⟩
  · exact later back hfront hback
  · cases mid with
    | nil => exact later [] (by simpa using hmid.symm) hrest.symm
    | cons event mid =>
        obtain ⟨rfl, -⟩ := List.cons.inj hrest
        exact hfirst front ip word mid hmid

end Contents

/-! ### The writes of an action -/

namespace Action

/-- The register writes that are reported of an action amount to the advance of the
instruction pointer followed by the register write of the action. -/
theorem replay_registers (action : Action) (regs : RegisterFile) (memory : Memory) :
    Contents.replay ⟨regs, memory⟩
        (.registerWritten ⟨.ip, (action.registers regs.advance).ip, .both⟩ ::
          (action.sideWrite regs.advance).toList.map .registerWritten) =
      .ok ⟨action.registers regs.advance, memory⟩ := by
  have hadvance : regs.write .ip regs.advance.ip .both = regs.advance := by
    rw [RegisterFile.ip_advance]
    rfl
  rw [Contents.replay_cons rfl]
  cases action with
  | nothing | setMemory _ => exact congrArg (fun r => Except.ok (Contents.mk r memory)) hadvance
  | setRegister w =>
      obtain ⟨r, data, mask⟩ := w
      by_cases hr : r = .ip
      · -- The write to the instruction pointer is part of its reported advance.
        subst hr
        refine congrArg (fun r => Except.ok (Contents.mk r memory)) ?_
        rw [registers, RegisterFile.advance, RegisterFile.write_write_self, RegisterFile.ip,
          RegisterFile.get_write_self, LaneMask.merge_both]
      · have hip : (regs.advance.write r data mask).ip = regs.advance.ip :=
          RegisterFile.get_write_of_ne (Ne.symm hr) _ _ _
        have hside : sideWrite regs.advance (.setRegister ⟨r, data, mask⟩) =
            some ⟨r, (regs.advance.write r data mask).get r, mask⟩ :=
          if_neg hr
        simp only [registers, hip, hadvance, hside, Option.toList_some, List.map_cons,
          List.map_nil]
        rw [Contents.replay_cons rfl, RegisterFile.write_get_write]
        rfl

/-- The memory write that is reported of an action amounts to the one of the action. -/
theorem replay_store {action : Action} {memory : Memory}
    (h : ∀ w, action = .setMemory w → w.index < memory.capacity) (regs : RegisterFile) :
    Contents.replay ⟨regs, memory⟩ ((action.store memory).toList.map .memoryWritten) =
      .ok ⟨regs, action.memory memory⟩ := by
  cases action with
  | nothing | setRegister _ => rfl
  | setMemory w =>
      have hwrite : memory.write w.index (stored memory w) w.mask =
          .ok (memory.put w.index (stored memory w)) := by
        rw [Memory.write_of_lt (h w rfl), stored, LaneMask.merge_merge]
      refine Contents.replay_cons ?_ []
      simp only [Contents.redo, hwrite]
      rfl

end Action

/-! ### One step -/

/-- What an observer sees of one instruction. -/
structure Block where
  ip : Word
  word : Word
  /-- The memory word written, if there is one. -/
  store : Option MemoryWrite
  /-- The instruction pointer afterwards. -/
  pointer : Word
  /-- The register written beside the instruction pointer, if there is one. -/
  side : Option RegisterWrite
  cycles : Nat
  side_ne_ip : ∀ w, side = some w → w.register ≠ .ip
  store_or_side : store = none ∨ side = none

/-- The events of a block, in order. -/
def Block.events (b : Block) : List Event :=
  [.fetched b.ip b.word] ++
  b.store.toList.map .memoryWritten ++
  .registerWritten ⟨.ip, b.pointer, .both⟩ :: b.side.toList.map .registerWritten ++
  [.retired b.ip b.cycles]

/-- What a block says of the instruction that retires. -/
def Block.retirement (b : Block) : Retirement :=
  ⟨b.ip, b.word, b.cycles⟩

/-- The clock cycles that an event reports. -/
def Event.cycles? : Event → Option Nat
  | .retired _ cycles => some cycles
  | _ => none

namespace Machine

/-- The block of the pending instruction, under a given opcode. -/
def block (m : Machine) (op : Opcode) : Block where
  ip := m.ip
  word := m.pending
  store := (m.action op).store m.memory
  pointer := (m.retire op).ip
  side := (m.action op).sideWrite m.registers.advance
  cycles := op.cycles
  side_ne_ip := by
    intro w hw
    cases haction : m.action op with
    | nothing | setMemory _ => rw [haction] at hw; cases hw
    | setRegister v =>
        rw [haction, Action.sideWrite] at hw
        split at hw
        · cases hw
        · next hne => cases hw; exact hne
  store_or_side := by
    cases m.action op with
    | nothing | setRegister _ => exact .inl rfl
    | setMemory _ => exact .inr rfl

/-- The replay of a retired instruction leads to the contents after it. -/
theorem replay_report {m : Machine} {op : Opcode} (h : m.Executes op) :
    m.contents.replay (m.report op) = .ok (m.retire op).contents := by
  have hfetch : m.contents.replay [.fetched m.ip m.pending] = .ok m.contents := rfl
  have hstore := (Contents.replay_append hfetch _).trans
    (Action.replay_store (fun _ => h.index_lt) m.registers)
  have hregisters := (Contents.replay_append hstore _).trans
    (Action.replay_registers (m.action op) m.registers ((m.action op).memory m.memory))
  exact Contents.replay_append hregisters [.retired m.ip op.cycles]

/-- The contents in front of a retired instruction explain its report. -/
theorem explains_report {m : Machine} {op : Opcode} (h : m.Executes op) :
    m.contents.Explains (m.report op) := by
  intro front ip word rest heq
  cases front with
  | nil =>
      obtain ⟨hfetched, -⟩ := List.cons.inj heq
      cases hfetched
      refine ⟨m.contents, rfl, rfl, ?_⟩
      rw [← Memory.wordIndex_eq]
      exact Memory.read_of_lt h.fetch_lt
  | cons event front =>
      -- A block reports its fetch first, so there is no fetch in the rest of it.
      simp only [report, List.cons_append, List.nil_append, List.cons.injEq] at heq
      have hmem : .fetched ip word ∈ front ++ .fetched ip word :: rest :=
        List.mem_append_right front List.mem_cons_self
      rw [← heq.2] at hmem
      simp at hmem

/-- A retired instruction reports its cycles once. -/
theorem filterMap_cycles_report (m : Machine) (op : Opcode) :
    (m.report op).filterMap Event.cycles? = [op.cycles] := by
  rw [report]
  cases (m.action op).store m.memory <;> cases (m.action op).sideWrite m.registers.advance <;> rfl

/-- A register write that is reported of a retired instruction has the whole register afterwards
as its data. -/
theorem get_of_mem_report {m : Machine} {op : Opcode} {w : RegisterWrite}
    (hw : .registerWritten w ∈ m.report op) :
    (m.retire op).registers.get w.register = w.data := by
  have hmem : w = ⟨.ip, (m.retire op).ip, .both⟩ ∨
      (m.action op).sideWrite m.registers.advance = some w := by
    simpa [report] using hw
  rcases hmem with rfl | hside
  · rfl
  · rw [retire]
    cases haction : m.action op with
    | nothing | setMemory _ => rw [haction] at hside; cases hside
    | setRegister v =>
        rw [haction, Action.sideWrite] at hside
        split at hside
        · cases hside
        · cases hside
          rfl

/-- A memory write that is reported of a retired instruction has the whole word afterwards as
its data. -/
theorem read_of_mem_report {m : Machine} {op : Opcode} (h : m.Executes op) {w : MemoryWrite}
    (hw : .memoryWritten w ∈ m.report op) :
    (m.retire op).memory.read w.index = .ok w.data := by
  have hstore : (m.action op).store m.memory = some w := by
    simpa [report] using hw
  rw [retire]
  cases haction : m.action op with
  | nothing | setRegister _ => rw [haction] at hstore; cases hstore
  | setMemory v =>
      have hlt : v.index < m.memory.capacity := h.index_lt haction
      rw [haction] at hstore
      cases hstore
      rw [Action.memory, Memory.read_of_lt ((Memory.capacity_put _ _ _).symm ▸ hlt),
        Memory.get_put, if_pos ⟨rfl, hlt⟩]

/-- The replay of a step leads to the contents after it. -/
theorem replay_step (m : Machine) :
    m.contents.replay m.step.events = .ok m.step.machine.contents := by
  rcases m.step_cases with ⟨_, -, hstep⟩ | ⟨-, _, _, -, hstep⟩ | ⟨-, _, h, hstep⟩
  · rw [hstep]
    rfl
  · rw [hstep]
    rfl
  · rw [hstep]
    exact replay_report h

/-- The contents in front of a step explain its events. -/
theorem explains_step (m : Machine) : m.contents.Explains m.step.events := by
  rcases m.step_cases with ⟨_, -, hstep⟩ | ⟨-, _, _, -, hstep⟩ | ⟨-, _, h, hstep⟩
  · rw [hstep]
    exact Contents.explains_of_not_mem fun _ _ => List.not_mem_nil
  · rw [hstep]
    exact Contents.explains_of_not_mem fun _ _ => by simp [stop]
  · rw [hstep]
    exact explains_report h

/-- The counters of a machine grow with what its events report. -/
theorem stats_step (m : Machine) :
    m.step.machine.stats =
      ⟨m.stats.instructions + (m.step.events.filterMap Event.cycles?).length,
        m.stats.cycles + (m.step.events.filterMap Event.cycles?).sum⟩ := by
  rcases m.step_cases with ⟨_, -, hstep⟩ | ⟨-, _, _, -, hstep⟩ | ⟨-, op, h, hstep⟩
  · rw [hstep]
    rfl
  · rw [hstep]
    rfl
  · rw [hstep, retirement, filterMap_cycles_report]
    rfl

/-- A register write that is reported of a step has the whole register afterwards as its
data. -/
theorem get_of_mem_step {m : Machine} {w : RegisterWrite}
    (hw : .registerWritten w ∈ m.step.events) :
    m.step.machine.registers.get w.register = w.data := by
  rcases m.step_cases with ⟨_, -, hstep⟩ | ⟨-, _, _, -, hstep⟩ | ⟨-, _, -, hstep⟩ <;>
    rw [hstep] at hw ⊢
  · cases hw
  · simp [stop] at hw
  · exact get_of_mem_report hw

/-- A memory write that is reported of a step has the whole word afterwards as its data. -/
theorem read_of_mem_step {m : Machine} {w : MemoryWrite}
    (hw : .memoryWritten w ∈ m.step.events) :
    m.step.machine.memory.read w.index = .ok w.data := by
  rcases m.step_cases with ⟨_, -, hstep⟩ | ⟨-, _, _, -, hstep⟩ | ⟨-, _, h, hstep⟩ <;>
    rw [hstep] at hw ⊢
  · cases hw
  · simp [stop] at hw
  · exact read_of_mem_report h hw

/-! ### Any number of steps -/

/-- One more step adds the instruction that it retires, if it retires one. -/
theorem filterMap_outcome_succ (m : Machine) (n : Nat) :
    ((List.range (n + 1)).filterMap fun k => (m.steps k).step.outcome.toOption) =
      ((List.range n).filterMap fun k => (m.steps k).step.outcome.toOption) ++
        (m.steps n).step.outcome.toOption.toList := by
  rw [List.range_succ, List.filterMap_append]
  cases hout : (m.steps n).step.outcome.toOption <;> simp [hout]

/-- The trace of a number of steps is a sequence of blocks, and a fault if there is one. The blocks
are those of the instructions that the steps retire, one for each and in order; and the fault is the
one that stops the machine on the way. -/
structure ReportedAs (m : Machine) (n : Nat) (blocks : List Block) (fault : Option Fault) :
    Prop where
  trace_eq : m.trace n = blocks.flatMap Block.events ++ fault.toList.map .faultRaised
  retirements_eq : blocks.map Block.retirement =
    (List.range n).filterMap fun k => (m.steps k).step.outcome.toOption
  fault_iff : ∀ f, fault = some f ↔ m.status = .running ∧ (m.steps n).status = .stopped f

namespace ReportedAs

variable {m : Machine} {n : Nat} {blocks : List Block} {fault : Option Fault}

/-- As long as the machine runs, no fault is reported. -/
theorem fault_eq_none (h : m.ReportedAs n blocks fault) (hrun : (m.steps n).status = .running) :
    fault = none := by
  refine Option.eq_none_iff_forall_ne_some.2 fun f hf => ?_
  obtain ⟨-, hstop⟩ := (h.fault_iff f).1 hf
  cases hrun.symm.trans hstop

/-- A step of a stopped machine adds nothing. -/
theorem of_stopped (h : m.ReportedAs n blocks fault) {f : Fault}
    (hstep : (m.steps n).step = ⟨.error f, false, [], m.steps n⟩) :
    m.ReportedAs (n + 1) blocks fault where
  trace_eq := by
    rw [trace, hstep, List.append_nil, h.trace_eq]
  retirements_eq := by
    rw [h.retirements_eq, filterMap_outcome_succ, hstep]
    exact (List.append_nil _).symm
  fault_iff := by
    rw [steps, hstep]
    exact h.fault_iff

/-- A step that fails adds its fault, and no other one has been there before. -/
theorem of_faults (h : m.ReportedAs n blocks fault) (hrun : (m.steps n).status = .running)
    {f : Fault} {control : ControlUnit}
    (hstep : (m.steps n).step = ({ m.steps n with control := control }).stop f) :
    m.ReportedAs (n + 1) blocks (some f) where
  trace_eq := by
    rw [trace, hstep, h.trace_eq, h.fault_eq_none hrun]
    simp [stop]
  retirements_eq := by
    rw [h.retirements_eq, filterMap_outcome_succ, hstep]
    exact (List.append_nil _).symm
  fault_iff := by
    intro g
    rw [steps, hstep, Option.some.injEq]
    constructor
    · rintro rfl
      exact ⟨running_of_steps hrun, rfl⟩
    · rintro ⟨-, hstop⟩
      exact Status.stopped.inj hstop

/-- A step that retires an instruction adds the block of it. -/
theorem of_executes (h : m.ReportedAs n blocks fault) (hrun : (m.steps n).status = .running)
    {op : Opcode} (hstep : (m.steps n).step = (m.steps n).retirement op) :
    m.ReportedAs (n + 1) (blocks ++ [(m.steps n).block op]) none where
  trace_eq := by
    have hblock : (m.steps n).report op = ((m.steps n).block op).events := rfl
    rw [trace, hstep, h.trace_eq, h.fault_eq_none hrun]
    simp [Machine.retirement, hblock]
  retirements_eq := by
    rw [List.map_append, h.retirements_eq, filterMap_outcome_succ, hstep]
    rfl
  fault_iff := by
    intro g
    rw [steps, hstep]
    refine iff_of_false (Option.some_ne_none _).symm ?_
    rintro ⟨-, hstop⟩
    cases hrun.symm.trans hstop

end ReportedAs

/-- **The form of a trace.** It is a sequence of blocks, and a fault if that is how it ended:
after a fault the machine has stopped and reports nothing any more. -/
theorem exists_reportedAs (m : Machine) (n : Nat) :
    ∃ blocks fault, m.ReportedAs n blocks fault := by
  induction n with
  | zero =>
      refine ⟨[], none, rfl, rfl, fun f => iff_of_false (Option.some_ne_none _).symm ?_⟩
      rintro ⟨hrun, hstop⟩
      cases hrun.symm.trans hstop
  | succ n ih =>
      obtain ⟨blocks, fault, h⟩ := ih
      rcases (m.steps n).step_cases with ⟨_, -, hstep⟩ | ⟨hrun, f, _, -, hstep⟩ |
        ⟨hrun, op, -, hstep⟩
      · exact ⟨blocks, fault, h.of_stopped hstep⟩
      · exact ⟨blocks, some f, h.of_faults hrun hstep⟩
      · exact ⟨_, none, h.of_executes hrun hstep⟩

/-- **The replay of a trace** leads to the contents after it. -/
theorem replay_trace (m : Machine) (n : Nat) :
    m.contents.replay (m.trace n) = .ok (m.steps n).contents := by
  induction n with
  | zero => rfl
  | succ n ih => exact (Contents.replay_append ih _).trans (replay_step _)

/-- The contents in front of a trace explain it. -/
theorem explains_trace (m : Machine) (n : Nat) : m.contents.Explains (m.trace n) := by
  induction n with
  | zero => exact Contents.explains_of_not_mem fun _ _ => List.not_mem_nil
  | succ n ih => exact ih.append (m.replay_trace n) (explains_step _)

/-- The counters of a machine grow with what its trace reports. -/
theorem stats_trace (m : Machine) (n : Nat) :
    (m.steps n).stats =
      ⟨m.stats.instructions + ((m.trace n).filterMap Event.cycles?).length,
        m.stats.cycles + ((m.trace n).filterMap Event.cycles?).sum⟩ := by
  induction n with
  | zero => rfl
  | succ n ih =>
      rw [steps, stats_step, ih, trace, List.filterMap_append, List.length_append,
        List.sum_append, Nat.add_assoc, Nat.add_assoc]

/-- **The trace is a complete redo log.** It is a sequence of blocks with at most one fault,
which is last. There is one block for each step that retires an instruction, in order, with the
address, the word and the cycles of that instruction; and a fault is there exactly if the machine
ran at first and has stopped with it. The replay of the trace over the initial registers and memory
leads to the final ones; each write has the whole register or word after its step as its data; each
fetch shows the instruction pointer and the word that the replay has by then; and the counters grow
by the number of retirements and their cycles. -/
theorem trace_is_redo_log (m : Machine) (n : Nat) :
    (∃ (blocks : List Block) (fault : Option Fault),
      m.trace n = blocks.flatMap Block.events ++ fault.toList.map .faultRaised ∧
      (blocks.map Block.retirement =
        (List.range n).filterMap fun k => (m.steps k).step.outcome.toOption) ∧
      ∀ f, fault = some f ↔ m.status = .running ∧ (m.steps n).status = .stopped f) ∧
    m.contents.replay (m.trace n) = .ok (m.steps n).contents ∧
    (∀ k < n,
      (∀ w, .registerWritten w ∈ (m.steps k).step.events →
        (m.steps (k + 1)).registers.get w.register = w.data) ∧
      ∀ w, .memoryWritten w ∈ (m.steps k).step.events →
        (m.steps (k + 1)).memory.read w.index = .ok w.data) ∧
    m.contents.Explains (m.trace n) ∧
    (m.steps n).stats.instructions =
      m.stats.instructions + ((m.trace n).filterMap Event.cycles?).length ∧
    (m.steps n).stats.cycles =
      m.stats.cycles + ((m.trace n).filterMap Event.cycles?).sum := by
  obtain ⟨blocks, fault, h⟩ := m.exists_reportedAs n
  rw [stats_trace]
  exact ⟨⟨blocks, fault, h.trace_eq, h.retirements_eq, h.fault_iff⟩, m.replay_trace n,
    fun _ _ => ⟨fun _ => get_of_mem_step, fun _ => read_of_mem_step⟩, m.explains_trace n,
    rfl, rfl⟩

end Machine

end Smolisa
