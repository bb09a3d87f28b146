import Smolisa.Machine.Step

/-!
# Runs

A run executes instructions one after the other until a given number of them has retired or
one of them fails. A program for this machine cannot halt; it parks in a loop instead, an
instruction that jumps to itself. A run can be told to stop there: at the first instruction
that retires without changing any register or memory word.

## Main results

* `Machine.runFrom_succ` — a run takes one step, and goes on unless that was the end.
-/

namespace Smolisa

/-- Where a run ends, short of its step limit or a fault. -/
inductive Boundary
  /-- At the step limit only. -/
  | steps
  /-- At the first instruction that changes nothing. -/
  | selfLoop
  deriving DecidableEq

/-- What a run without a fault reports. Its counters are idealised like those of the machine: they
do not overflow. -/
structure RunOutcome where
  /-- The number of instructions retired. -/
  steps : Nat
  /-- The number of clock cycles that they took. -/
  cycles : Nat
  /-- Whether the run ended at its boundary. -/
  boundaryReached : Bool
  deriving DecidableEq

/-- The report of a run before its first step. -/
def RunOutcome.start (boundary : Boundary) : RunOutcome :=
  ⟨0, 0, boundary == .steps⟩

/-- Counts one more instruction, of a given number of cycles. -/
def RunOutcome.retire (o : RunOutcome) (cycles : Nat) : RunOutcome :=
  { o with steps := o.steps + 1, cycles := o.cycles + cycles }

namespace Machine

/-- Goes on with a run for at most `limit` more steps, given its report so far. -/
def runFrom (boundary : Boundary) :
    (limit : Nat) → RunOutcome → Machine → Except Fault RunOutcome × Machine
  | 0, soFar, m => (.ok soFar, m)
  | limit + 1, soFar, m =>
    let s := m.step
    match s.outcome with
    | .error fault => (.error fault, s.machine)
    | .ok retirement =>
      let soFar := soFar.retire retirement.cycles
      if boundary = .selfLoop ∧ s.changed = false then
        (.ok { soFar with boundaryReached := true }, s.machine)
      else
        runFrom boundary limit soFar s.machine

/-- Executes instructions until a boundary is reached or `limit` of them have retired. -/
def runUntil (m : Machine) (boundary : Boundary) (limit : Nat) :
    Except Fault RunOutcome × Machine :=
  runFrom boundary limit (.start boundary) m

/-- Executes a given number of instructions. -/
def run (m : Machine) (steps : Nat) : Except Fault RunOutcome × Machine :=
  m.runUntil .steps steps

/-- A run takes one step, and goes on unless that was the end. -/
theorem runFrom_succ (boundary : Boundary) (limit : Nat) (soFar : RunOutcome)
    (m : Machine) :
    runFrom boundary (limit + 1) soFar m =
      match m.step.outcome with
      | .error fault => (.error fault, m.step.machine)
      | .ok retirement =>
        if boundary = .selfLoop ∧ m.step.changed = false then
          (.ok { soFar.retire retirement.cycles with boundaryReached := true },
            m.step.machine)
        else
          runFrom boundary limit (soFar.retire retirement.cycles)
            m.step.machine :=
  rfl

end Machine

end Smolisa
