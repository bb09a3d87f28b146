import Smolisa.Proofs.Iteration

/-!
# Machines in Lockstep

Two machines of different make may do the same for as long as neither of them comes to something
that the other one has and it has not. A relation between them is a lockstep, up to the faults
at which they may part, if related machines take the same step and are related after it. This
module says once what follows for any number of steps and for runs: what has to be shown of two
machines is a statement about a single step of each.

The relation is not symmetric. It is the first machine that may fail where the second one goes
on.

## Main results

* `Machine.Lockstep.steps` — machines stay related for as long as the first one retires
  instructions.
* `Machine.Lockstep.failsAfter` — if the first one fails, then so does the second one, and at the
  same step, unless they may part at the fault.
* `Machine.Lockstep.runFrom` — **runs report the same and leave related machines**, unless the
  first one fails with a fault at which they may part.
-/

namespace Smolisa

/-- The results of two steps are the same but for the machines, which are related. -/
structure StepResult.Matches (R : Machine → Machine → Prop) (x y : StepResult) : Prop where
  outcome : x.outcome = y.outcome
  changed : x.changed = y.changed
  machine : R x.machine y.machine

namespace Machine

/-- Related machines take the same step and are related after it, unless the first one fails
with a fault at which they may part. -/
def Lockstep (R : Machine → Machine → Prop) (parts : Fault → Prop) : Prop :=
  ∀ ⦃a b : Machine⦄, R a b →
    a.step.Matches R b.step ∨ ∃ fault, parts fault ∧ a.step.outcome = .error fault

namespace Lockstep

variable {R : Machine → Machine → Prop} {parts : Fault → Prop} (h : Lockstep R parts)
  {a b : Machine} (hab : R a b)
include h hab

/-! ### Single steps -/

/-- An instruction that the first machine retires is retired by the second one. -/
theorem matches_of_retires (ha : a.Retires) : a.step.Matches R b.step := by
  obtain ⟨r, hr⟩ := ha
  rcases h hab with hmatches | ⟨fault, -, hfault⟩
  · exact hmatches
  · cases hr.symm.trans hfault

/-- A fault at which the machines may not part is raised by both of them. -/
theorem matches_of_outcome_error {fault : Fault} (ha : a.step.outcome = .error fault)
    (hparts : ¬ parts fault) : a.step.Matches R b.step := by
  rcases h hab with hmatches | ⟨fault', hparts', hfault⟩
  · exact hmatches
  · cases ha.symm.trans hfault
    exact absurd hparts' hparts

/-! ### Any number of steps -/

/-- Machines stay related for as long as the first one retires instructions. -/
theorem steps {k : Nat} (ha : ∀ i < k, (a.steps i).Retires) : R (a.steps k) (b.steps k) := by
  induction k with
  | zero => exact hab
  | succ k ih =>
      have hrelated : R (a.steps k) (b.steps k) := ih fun i hi => ha i (Nat.lt_succ_of_lt hi)
      exact (h.matches_of_retires hrelated (ha k k.lt_succ_self)).machine

/-- As long as the first machine retires instructions, the second one retires the same. -/
theorem outcome_eq {k : Nat} (ha : ∀ i < k, (a.steps i).Retires) {i : Nat} (hi : i < k) :
    (b.steps i).step.outcome = (a.steps i).step.outcome := by
  have hrelated : R (a.steps i) (b.steps i) := h.steps hab fun j hj => ha j (hj.trans hi)
  exact (h.matches_of_retires hrelated (ha i hi)).outcome.symm

/-- A failure of the first machine is one of the second, at the same step, unless the machines
may part at the fault. -/
theorem failsAfter {k : Nat} {fault : Fault} (ha : a.FailsAfter k fault)
    (hparts : ¬ parts fault) :
    b.FailsAfter k fault ∧ R (a.steps (k + 1)) (b.steps (k + 1)) := by
  have hlast := h.matches_of_outcome_error (h.steps hab ha.retires) ha.fails hparts
  refine ⟨⟨fun i hi => ?_, hlast.outcome.symm.trans ha.fails⟩, hlast.machine⟩
  obtain ⟨r, hr⟩ := ha.retires i hi
  exact ⟨r, (h.outcome_eq hab ha.retires hi).trans hr⟩

/-! ### Runs -/

/-- **Runs report the same and leave related machines**, unless the first one fails with a fault
at which they may part. -/
theorem runFrom (boundary : Boundary) (limit : Nat) (soFar : RunOutcome) :
    ((runFrom boundary limit soFar a).1 = (runFrom boundary limit soFar b).1 ∧
      R (runFrom boundary limit soFar a).2 (runFrom boundary limit soFar b).2) ∨
    ∃ fault, parts fault ∧ (runFrom boundary limit soFar a).1 = .error fault := by
  induction limit generalizing soFar a b with
  | zero => exact .inl ⟨rfl, hab⟩
  | succ limit ih =>
      rcases h hab with hstep | ⟨fault, hparts, hfault⟩
      · rw [runFrom_succ, runFrom_succ, hstep.outcome, hstep.changed]
        cases b.step.outcome with
        | error fault => exact .inl ⟨rfl, hstep.machine⟩
        | ok retirement =>
            dsimp only
            split
            · exact .inl ⟨rfl, hstep.machine⟩
            · exact ih hstep.machine _
      · rw [runFrom_of_outcome_error limit soFar hfault]
        exact .inr ⟨fault, hparts, rfl⟩

/-- A run of the first machine that does not fail is one of the second. -/
theorem run_ok {n : Nat} {done : RunOutcome} {a' : Machine} (ha : a.run n = (.ok done, a')) :
    ∃ b', b.run n = (.ok done, b') ∧ R a' b' := by
  rw [run, runUntil] at ha
  rcases h.runFrom hab .steps n (.start .steps) with ⟨houtcome, hmachine⟩ | ⟨_, -, hfault⟩
  · rw [ha] at houtcome hmachine
    exact ⟨(b.run n).2, Prod.ext houtcome.symm rfl, hmachine⟩
  · rw [ha] at hfault
    cases hfault

end Lockstep

end Machine

end Smolisa
