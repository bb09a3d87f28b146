import Smolisa.Proofs.Call
import Smolisa.Proofs.Lockstep

/-!
# Machines That Behave Alike

What an instruction does is decided by the configuration, the registers and the memory of the
machine. The control unit has no say in it: the instruction and the condition that an earlier
instruction has left there are overwritten before they are looked at. So two machines that
differ in their control units only cannot be told apart, neither by the replies to calls nor
by an observer; and the first instruction that they fetch removes the difference too.

The counters and the status are not read by an instruction either, but they are part of what a
machine shows. `Machine.Agree` is the relation without them, `Machine.Alike` the one with them.

## Main results

* `Machine.Alike.step` — **machines that are alike take the same step**, and are alike after
  it; `Machine.Alike.step_eq` — if they fetch a word in it, they are equal after it.
* `Machine.Alike.runFrom`, `Machine.Alike.answer` and `Machine.Alike.session` — the same for
  runs, for calls of any kind, and for lists of calls.
* `Machine.no_control_state_leaks` — **nothing leaks from one instruction into the next.**
-/

namespace Smolisa

namespace Machine

/-! ### Machines about to execute the same instruction -/

/-- The machines have the same configuration, registers and memory. -/
structure Agree (a b : Machine) : Prop where
  config : a.config = b.config
  registers : a.registers = b.registers
  memory : a.memory = b.memory

/-- The word at the instruction pointer can be fetched. -/
structure Fetches (m : Machine) : Prop where
  aligned : m.ip.toNat % 2 = 0
  fetch_lt : Memory.wordIndex m.ip < m.memory.capacity

section Agree

variable {a b : Machine} (h : Agree a b)
include h

theorem Agree.eq : b = { a with control := b.control, status := b.status, stats := b.stats } := by
  rw [h.config, h.registers, h.memory]

/-- Machines that agree execute the same instructions. -/
theorem Agree.executes {op : Opcode} (ha : a.Executes op) : b.Executes op := by
  rw [h.eq]
  exact ⟨ha.aligned, ha.fetch_lt, ha.decodes, ha.data_lt⟩

/-- A retired instruction leaves machines that agree equal, up to status and counters. -/
theorem Agree.retire (op : Opcode) :
    b.retire op =
      { a.retire op with status := b.status, stats := b.stats.retire op.cycles } := by
  rw [h.eq]
  rfl

/-- Machines that agree fail alike. If the instruction was fetched, their control units hold
the same then; otherwise each of them holds what it held before. -/
theorem Agree.faults {fault : Fault} {control : ControlUnit} (ha : a.Faults fault control) :
    ∃ control', b.Faults fault control' ∧ (a.Fetches → control' = control) := by
  rw [h.eq]
  cases ha with
  | misaligned odd =>
      exact ⟨_, .misaligned odd, fun hf => by have := hf.aligned; omega⟩
  | fetch aligned le_fetch =>
      exact ⟨_, .fetch aligned le_fetch, fun hf => absurd hf.fetch_lt (Nat.not_lt.2 le_fetch)⟩
  | decode aligned fetch_lt unknown =>
      exact ⟨_, .decode aligned fetch_lt unknown, fun _ => rfl⟩
  | data aligned fetch_lt decodes accesses le_data =>
      exact ⟨_, .data aligned fetch_lt decodes accesses le_data, fun _ => rfl⟩

end Agree

/-! ### Machines that differ in their control units -/

/-- The machines differ in their control units only. -/
structure Alike (a b : Machine) : Prop extends Agree a b where
  status : a.status = b.status
  stats : a.stats = b.stats

theorem Alike.refl (m : Machine) : Alike m m :=
  ⟨⟨rfl, rfl, rfl⟩, rfl, rfl⟩

end Machine

/-- The results differ in the control units of the machines only. -/
structure StepResult.Alike (x y : StepResult) : Prop where
  outcome : x.outcome = y.outcome
  changed : x.changed = y.changed
  events : x.events = y.events
  machine : x.machine.Alike y.machine

/-- The answers differ in the control units of the machines only. -/
structure Response.Alike (x y : Response) : Prop where
  reply : x.reply = y.reply
  events : x.events = y.events
  machine : x.machine.Alike y.machine

namespace Machine

section Alike

variable {a b : Machine} (h : Alike a b)
include h

theorem Alike.eq : b = { a with control := b.control } := by
  rw [h.config, h.registers, h.memory, h.status, h.stats]

/-- Machines that are alike retire an instruction in the same way. -/
theorem Alike.retirement (op : Opcode) : b.retirement op = a.retirement op := by
  rw [h.eq]
  rfl

/-- Machines that are alike, with the same latched, are stopped in the same way. -/
theorem Alike.stop (control : ControlUnit) (fault : Fault) :
    ({ b with control := control } : Machine).stop fault =
      ({ a with control := control } : Machine).stop fault := by
  rw [h.eq]

/-- **Machines that are alike take the same step.** -/
theorem Alike.step : a.step.Alike b.step := by
  rcases a.step_cases with ⟨fault, hstop, hstep⟩ | ⟨hrun, fault, control, hfaults, hstep⟩ |
    ⟨hrun, op, hexec, hstep⟩
  · rw [hstep, step_of_stopped (h.status ▸ hstop)]
    exact ⟨rfl, rfl, rfl, h⟩
  · obtain ⟨control', hfaults', -⟩ := h.faults hfaults
    rw [hstep, step_of_faults (h.status ▸ hrun) hfaults', h.stop]
    exact ⟨rfl, rfl, rfl, ⟨rfl, rfl, rfl⟩, rfl, rfl⟩
  · rw [hstep, step_of_executes (h.status ▸ hrun) (h.executes hexec), h.retirement]
    exact ⟨rfl, rfl, rfl, .refl _⟩

/-- **A fetch removes the difference.** It latches the word, and with it everything that the
control unit holds from then on. -/
theorem Alike.step_eq (running : a.status = .running) (hfetch : a.Fetches) : b.step = a.step := by
  have running' : b.status = .running := h.status ▸ running
  rcases a.executes_or_faults with ⟨op, hexec⟩ | ⟨fault, control, hfaults⟩
  · rw [step_of_executes running hexec, step_of_executes running' (h.executes hexec),
      h.retirement]
  · obtain ⟨control', hfaults', hcontrol⟩ := h.faults hfaults
    rw [step_of_faults running hfaults, step_of_faults running' hfaults', h.stop,
      hcontrol hfetch]

/-! ### Runs, calls and sessions -/

/-- Machines that are alike stay alike over any number of steps. -/
theorem Alike.steps (n : Nat) : (a.steps n).Alike (b.steps n) := by
  induction n with
  | zero => exact h
  | succ n ih => exact ih.step.machine

/-- Runs of machines that are alike report the same and leave the machines alike. -/
theorem Alike.runFrom (boundary : Boundary) (limit : Nat) (soFar : RunOutcome) :
    (runFrom boundary limit soFar a).1 = (runFrom boundary limit soFar b).1 ∧
      (runFrom boundary limit soFar a).2.Alike (runFrom boundary limit soFar b).2 := by
  have hlockstep : Lockstep Alike fun _ => False := fun _ _ halike =>
    .inl ⟨halike.step.outcome, halike.step.changed, halike.step.machine⟩
  rcases hlockstep.runFrom h boundary limit soFar with hsame | ⟨_, hparts, -⟩
  · exact hsame
  · exact hparts.elim

/-- A new state, put into machines that are alike or rejected by both, leaves them alike. -/
theorem Alike.accept (state : Except Fault Machine) : (a.accept state).Alike (b.accept state) := by
  cases state with
  | error fault => exact ⟨rfl, rfl, h⟩
  | ok m => exact ⟨rfl, rfl, .refl m⟩

/-- **Machines that are alike give the same answers**, and stay alike. -/
theorem Alike.answer (call : Call) : (a.answer call).Alike (b.answer call) := by
  cases call with
  | step => exact ⟨congrArg Reply.stepped h.step.outcome, rfl, h.step.machine⟩
  | stepTraced =>
      exact ⟨congrArg Reply.stepped h.step.outcome, h.step.events, h.step.machine⟩
  | run steps =>
      obtain ⟨houtcome, hmachine⟩ := h.runFrom .steps steps (.start .steps)
      exact ⟨congrArg Reply.ran houtcome, rfl, hmachine⟩
  | runUntil boundary limit =>
      obtain ⟨houtcome, hmachine⟩ := h.runFrom boundary limit (.start boundary)
      exact ⟨congrArg Reply.ran houtcome, rfl, hmachine⟩
  | load image =>
      have hload : b.load image = a.load image := by rw [h.eq]; rfl
      rw [Machine.answer, Machine.answer, hload]
      exact h.accept _
  | restore s =>
      have hrestore : b.restore s = a.restore s := by rw [h.eq]; rfl
      rw [Machine.answer, Machine.answer, hrestore]
      exact h.accept _
  | reset =>
      have hreset : b.reset = a.reset := by rw [h.eq]; rfl
      rw [Machine.answer, Machine.answer, hreset]
      exact h.accept _

/-- Machines that are alike answer a list of calls alike, from the first to the last. -/
theorem Alike.session (calls : List Call) :
    List.Forall₂ (fun x y => x.2.Alike y.2) (a.session calls) (b.session calls) := by
  induction calls generalizing a b with
  | nil => exact .nil
  | cons call rest ih => exact .cons (h.answer call) (ih (h.answer call).machine)

end Alike

/-! ### The first fetch -/

/-- A running machine that has come to an instruction which can be fetched could fetch the one
that it started from: a failed fetch would have stopped it there. -/
theorem fetches_of_steps {m : Machine} (running : m.status = .running) {n : Nat}
    (h : (m.steps n).Fetches) : m.Fetches := by
  cases n with
  | zero => exact h
  | succ n =>
      rcases m.executes_or_faults with ⟨op, hexec⟩ | ⟨fault, control, hfaults⟩
      · exact ⟨hexec.aligned, hexec.fetch_lt⟩
      · have hstep := step_of_faults running hfaults
        have hstop : m.step.machine.status = .stopped fault := by rw [hstep]; rfl
        rw [← steps_machine_step, steps_of_stopped hstop, hstep] at h
        exact ⟨h.aligned, h.fetch_lt⟩

/-- **No control state leaks from one instruction into the next.** Machines that differ in
their control units only take the same steps, with the same outcomes and the same events, and
differ in their control units only after each of them. If they run, then from the first word
on that they fetch they do not differ in their control units either. -/
theorem no_control_state_leaks {a b : Machine} (h : Alike a b) :
    (∀ n, (a.steps n).step.outcome = (b.steps n).step.outcome ∧
      (a.steps n).step.events = (b.steps n).step.events ∧
      (a.steps (n + 1)).Alike (b.steps (n + 1))) ∧
    (a.status = .running → ∀ n, (a.steps n).Fetches →
      ∀ k, n < k → (a.steps k).control = (b.steps k).control) := by
  constructor
  · intro n
    have hstep := (h.steps n).step
    exact ⟨hstep.outcome, hstep.events, hstep.machine⟩
  · intro running n hfetch k hk
    obtain ⟨k, rfl⟩ := Nat.exists_eq_add_one_of_ne_zero (Nat.ne_zero_of_lt hk)
    rw [← steps_machine_step, ← steps_machine_step,
      h.step_eq running (fetches_of_steps running hfetch)]

/-- A conditional move does not see the zero flag that an earlier one has left behind. -/
theorem no_control_state_leaks_conditional :
    let a : Machine :=
      { new ⟨1, .full⟩ with memory := ⟨#[Word.encodeRegister .lrnz .ip .g2 .g0]⟩ }
    let b : Machine := { a with control := ⟨some 0x0006, some .lrz, true⟩ }
    (a.steps 0).step.outcome = (b.steps 0).step.outcome ∧
      (a.steps 1).control = (b.steps 1).control := by
  intro a b
  have h := no_control_state_leaks (a := a) (b := b) ⟨⟨rfl, rfl, rfl⟩, rfl, rfl⟩
  exact ⟨(h.1 0).1, h.2 rfl 0 ⟨by decide, by decide⟩ 1 (by decide)⟩

end Machine

end Smolisa
