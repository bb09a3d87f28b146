import Smolisa.Machine.Run
import Smolisa.Proofs.Step

/-!
# Steps in a Row

What a single step counts, any number of steps counts, whether they are taken one by one or
within a run. This module packages these inductions once. A run is a loop with a step in its
body, a report that it carries along, and two exits; the statements here are about the loop as
it stands, from any report onwards, and the run itself is the case in which the report is empty.

## Main results

* `Machine.stats_of_runUntil_ok` — a run without a fault reports what the machine has counted.
* `Machine.steps_of_runFrom_ok` — a run of a number of steps takes them all.
-/

namespace Smolisa

namespace Machine

/-! ### Single steps -/

/-- A step and then a number of steps is that number of steps and one. -/
theorem steps_machine_step (m : Machine) (n : Nat) :
    m.step.machine.steps n = m.steps (n + 1) := by
  induction n with
  | zero => rfl
  | succ n ih => exact congrArg (fun m' : Machine => m'.step.machine) ih

/-- A stopped machine stays as it is. -/
theorem steps_of_stopped {m : Machine} {fault : Fault} (h : m.status = .stopped fault)
    (n : Nat) : m.steps n = m := by
  induction n with
  | zero => rfl
  | succ n ih => rw [steps, ih, step_of_stopped h]

/-- A machine that still runs after a number of steps ran before them. -/
theorem running_of_steps {m : Machine} {n : Nat} (h : (m.steps n).status = .running) :
    m.status = .running := by
  cases hstatus : m.status with
  | running => rfl
  | stopped fault =>
      rw [steps_of_stopped hstatus, hstatus] at h
      cases h

/-- A step that retires an instruction counts it. -/
theorem stats_of_outcome_ok {m : Machine} {retirement : Retirement}
    (h : m.step.outcome = .ok retirement) :
    m.step.machine.stats = m.stats.retire retirement.cycles := by
  obtain ⟨-, op, -, hstep⟩ := step_of_outcome_ok h
  rw [hstep] at h ⊢
  cases h
  rfl

/-! ### The first step of a run -/

section FirstStep

variable {m : Machine} (limit : Nat) (soFar : RunOutcome)

/-- A run ends with a step that fails. -/
theorem runFrom_of_outcome_error {fault : Fault} (h : m.step.outcome = .error fault)
    (boundary : Boundary) :
    runFrom boundary (limit + 1) soFar m = (.error fault, m.step.machine) := by
  rw [runFrom_succ, h]

/-- A run of a number of steps goes on after a step that retires. -/
theorem runFrom_steps_of_outcome_ok {retirement : Retirement}
    (h : m.step.outcome = .ok retirement) :
    runFrom .steps (limit + 1) soFar m =
      runFrom .steps limit (soFar.retire retirement.cycles) m.step.machine := by
  have hnever : ¬ (Boundary.steps = .selfLoop ∧ m.step.changed = false) :=
    fun hloop => Boundary.noConfusion hloop.1
  rw [runFrom_succ, h]
  exact if_neg hnever

/-- A run to a self-loop goes on after a step that changes something. -/
theorem runFrom_selfLoop_of_changed {retirement : Retirement}
    (h : m.step.outcome = .ok retirement) (changed : m.step.changed = true) :
    runFrom .selfLoop (limit + 1) soFar m =
      runFrom .selfLoop limit (soFar.retire retirement.cycles) m.step.machine := by
  have hgoes : ¬ (Boundary.selfLoop = .selfLoop ∧ m.step.changed = false) :=
    fun hloop => Bool.noConfusion (changed.symm.trans hloop.2)
  rw [runFrom_succ, h]
  exact if_neg hgoes

/-- A run to a self-loop ends with a step that changes nothing. -/
theorem runFrom_selfLoop_of_unchanged {retirement : Retirement}
    (h : m.step.outcome = .ok retirement) (unchanged : m.step.changed = false) :
    runFrom .selfLoop (limit + 1) soFar m =
      (.ok { soFar.retire retirement.cycles with boundaryReached := true }, m.step.machine) := by
  rw [runFrom_succ, h]
  exact if_pos ⟨rfl, unchanged⟩

end FirstStep

/-! ### Whole runs -/

/-- From any report onwards, the loop of a run without a fault reports what the machine counts. -/
theorem stats_of_runFrom_ok {boundary : Boundary} {limit : Nat} {soFar done : RunOutcome}
    {m m' : Machine} (h : runFrom boundary limit soFar m = (.ok done, m')) :
    m'.stats.instructions + soFar.steps = m.stats.instructions + done.steps ∧
      m'.stats.cycles + soFar.cycles = m.stats.cycles + done.cycles := by
  induction limit generalizing soFar m with
  | zero =>
      cases h
      exact ⟨rfl, rfl⟩
  | succ limit ih =>
      rw [runFrom_succ] at h
      cases hout : m.step.outcome with
      | error fault =>
          rw [hout] at h
          cases h
      | ok retirement =>
          have hstats := stats_of_outcome_ok hout
          rw [hout] at h
          dsimp only at h
          split at h
          · cases h
            simp only [hstats, Stats.retire, RunOutcome.retire]
            omega
          · have hrest := ih h
            simp only [hstats, Stats.retire, RunOutcome.retire] at hrest
            omega

/-- A run that does not fail reports what it has counted. -/
theorem stats_of_runUntil_ok {m m' : Machine} {boundary : Boundary} {limit : Nat}
    {done : RunOutcome} (h : m.runUntil boundary limit = (.ok done, m')) :
    m'.stats = ⟨m.stats.instructions + done.steps, m.stats.cycles + done.cycles⟩ := by
  obtain ⟨hinstructions, hcycles⟩ := stats_of_runFrom_ok h
  rw [← hinstructions, ← hcycles]
  rfl

/-- A run of a number of steps, if it does not fail, takes them all. -/
theorem steps_of_runFrom_ok {limit : Nat} {soFar done : RunOutcome} {m m' : Machine}
    (h : runFrom .steps limit soFar m = (.ok done, m')) : done.steps = soFar.steps + limit := by
  induction limit generalizing soFar m with
  | zero =>
      cases h
      rfl
  | succ limit ih =>
      cases hout : m.step.outcome with
      | error fault =>
          rw [runFrom_of_outcome_error _ _ hout] at h
          cases h
      | ok retirement =>
          rw [runFrom_steps_of_outcome_ok _ _ hout] at h
          simp only [ih h, RunOutcome.retire]
          omega

end Machine

end Smolisa
