import Smolisa.Proofs.Agreement

/-!
# Self-Loops

A program for this machine cannot halt. It parks in a loop of one instruction that writes its
own address back to the instruction pointer and changes nothing. A run that is told to stop at
a self-loop looks for an instruction that leaves registers and memory as they were. That this
is enough to stop for good takes an argument, since the machine holds more than the run looks
at: what is latched, the status and the counters. An instruction reads none of them, and what
it latches depends on registers and memory only. So the next instruction is the same, latches
the same, and changes as little: the machine is a fixed point of its step, up to the counters.

Hence it makes no difference to anything but the counters whether a run stops at the loop or
goes on idling there.

## Main results

* `Machine.parked_of_unchanged` — **an instruction that changes nothing parks the machine.**
* `Machine.Parked.runFrom` — a run of a parked machine only counts.
* `Machine.runFrom_selfLoop_cases` — a run that may stop at a self-loop, beside one that may
  not.
* `Machine.selfLoop_transparent_and_permanent` — **stopping at a self-loop is transparent and
  permanent.**
-/

namespace Smolisa

namespace Machine

/-! ### Parked machines -/

/-- The machine when an instruction under a given opcode has retired a number of times and
changed nothing: only the counters have moved. -/
def idle (m : Machine) (op : Opcode) (n : Nat) : Machine :=
  { m with stats := ⟨m.stats.instructions + n, m.stats.cycles + n * op.cycles⟩ }

theorem idle_zero (m : Machine) (op : Opcode) : m.idle op 0 = m := by
  simp [idle]

theorem idle_idle (m : Machine) (op : Opcode) (n k : Nat) :
    (m.idle op n).idle op k = m.idle op (n + k) := by
  simp [idle, Nat.add_assoc, Nat.add_mul]

/-- The machine idles: it executes its pending instruction, and that changes nothing but the
counters. -/
structure Parked (m : Machine) (op : Opcode) : Prop where
  running : m.status = .running
  executes : m.Executes op
  retire_eq : m.retire op = m.idle op 1

/-- **An instruction that changes nothing parks the machine.** It need not have been parked
before, as something else may have been latched then. -/
theorem parked_of_unchanged {m : Machine} {r : Retirement} (h : m.step.outcome = .ok r)
    (unchanged : m.step.changed = false) : ∃ op, m.step.machine.Parked op := by
  obtain ⟨hrun, op, hexec, hstep⟩ := step_of_outcome_ok h
  rw [hstep, retirement, Bool.or_eq_false_iff, bne_eq_false_iff_eq,
    bne_eq_false_iff_eq] at unchanged
  obtain ⟨hregisters, hmemory⟩ := unchanged
  -- What the run compares is all that an instruction reads, so it is pending once more.
  have hagree : Agree m (m.retire op) := ⟨rfl, hregisters.symm, hmemory.symm⟩
  rw [hstep]
  refine ⟨op, hrun, hagree.executes hexec, ?_⟩
  rw [retirement, hagree.retire, idle, Nat.one_mul, Stats.retire]

section Parked

variable {m : Machine} {op : Opcode} (h : m.Parked op)
include h

/-- What a parked machine has latched comes from the instruction that it idles in. -/
theorem Parked.control_eq : m.control = m.latched op :=
  (congrArg Machine.control h.retire_eq).symm

/-- A parked machine stays parked. -/
theorem Parked.idle (n : Nat) : (m.idle op n).Parked op := by
  have hagree : Agree m (m.idle op n) := ⟨rfl, rfl, rfl⟩
  refine ⟨h.running, hagree.executes h.executes, ?_⟩
  rw [hagree.retire, h.retire_eq]
  simp [Machine.idle, Stats.retire]

/-- A step of a parked machine only counts. -/
theorem Parked.step : m.step.outcome = .ok ⟨m.ip, m.pending, op.cycles⟩ ∧
    m.step.machine = m.idle op 1 := by
  rw [step_of_executes h.running h.executes]
  exact ⟨rfl, h.retire_eq⟩

/-- **A run of a parked machine only counts.** -/
theorem Parked.runFrom (n : Nat) (soFar : RunOutcome) :
    runFrom .steps n soFar m =
      (.ok { soFar with steps := soFar.steps + n, cycles := soFar.cycles + n * op.cycles },
        m.idle op n) := by
  induction n generalizing soFar m with
  | zero => simp [Machine.runFrom, idle_zero]
  | succ n ih =>
      obtain ⟨houtcome, hmachine⟩ := h.step
      rw [runFrom_steps_of_outcome_ok _ _ houtcome, hmachine, ih (h.idle 1), idle_idle,
        Nat.add_comm 1 n]
      simp only [RunOutcome.retire, Nat.add_mul, Nat.one_mul, Nat.add_comm n 1, Nat.add_assoc]

end Parked

/-! ### Runs that stop at a self-loop -/

/-- **A run that may stop at a self-loop, beside one that may not.** They fail alike; or both
of them take all their steps and leave the same machine; or the first one stops at a parked
machine, and the second one idles there for the rest of its steps. -/
theorem runFrom_selfLoop_cases (limit : Nat) (soFar soFar' : RunOutcome) (m : Machine) :
    (∃ fault r, Machine.runFrom .selfLoop limit soFar m = (.error fault, r) ∧
      Machine.runFrom .steps limit soFar' m = (.error fault, r)) ∨
    (∃ done done' r, Machine.runFrom .selfLoop limit soFar m = (.ok done, r) ∧
      done.boundaryReached = soFar.boundaryReached ∧
      Machine.runFrom .steps limit soFar' m = (.ok done', r)) ∨
    ∃ done done' r op rest, Machine.runFrom .selfLoop limit soFar m = (.ok done, r) ∧
      r.Parked op ∧ Machine.runFrom .steps limit soFar' m = (.ok done', r.idle op rest) := by
  induction limit generalizing soFar soFar' m with
  | zero => exact .inr (.inl ⟨_, _, _, rfl, rfl, rfl⟩)
  | succ limit ih =>
      cases hout : m.step.outcome with
      | error fault =>
          exact .inl ⟨fault, _, runFrom_of_outcome_error _ _ hout _,
            runFrom_of_outcome_error _ _ hout _⟩
      | ok retirement =>
          have hsteps := runFrom_steps_of_outcome_ok limit soFar' hout
          cases hchanged : m.step.changed with
          | true =>
              rw [runFrom_selfLoop_of_changed _ _ hout hchanged, hsteps]
              exact ih _ _ _
          | false =>
              obtain ⟨op, hparked⟩ := parked_of_unchanged hout hchanged
              exact .inr (.inr ⟨_, _, _, op, limit,
                runFrom_selfLoop_of_unchanged _ _ hout hchanged, hparked,
                hsteps.trans (hparked.runFrom limit _)⟩)

/-- A run of a number of steps, if it does not fail, counts that number of instructions and the
cycles that it reports. -/
theorem run_eq_ok_inv {m m' : Machine} {n : Nat} {done : RunOutcome}
    (h : m.run n = (.ok done, m')) :
    done.steps = n ∧
      m'.stats = ⟨m.stats.instructions + n, m.stats.cycles + done.cycles⟩ := by
  have hsteps : done.steps = 0 + n := steps_of_runFrom_ok h
  rw [Nat.zero_add] at hsteps
  exact ⟨hsteps, hsteps ▸ stats_of_runUntil_ok h⟩

/-- **Stopping at a self-loop is transparent and permanent.** A run that may stop at a self-loop
fails exactly if one that may not fails, with the same fault and the same machine. If it does
not fail, neither does the other one, which retires all its instructions; and the two machines
that they leave differ in their counters only. If it has stopped at a self-loop, then that is
the instruction latched last, which is pending still; and a run of the machine from there, over
any number of steps, retires this instruction as often and changes nothing but the counters. -/
theorem selfLoop_transparent_and_permanent (m : Machine) (n : Nat) :
    (∀ fault r, m.runUntil .selfLoop n = (.error fault, r) ↔ m.run n = (.error fault, r)) ∧
    ∀ done r, m.runUntil .selfLoop n = (.ok done, r) →
      (∃ done', done'.steps = n ∧ m.run n = (.ok done', { r with
        stats := ⟨m.stats.instructions + n, m.stats.cycles + done'.cycles⟩ })) ∧
      (done.boundaryReached = true → ∃ op,
        r.pending.opcode? r.config.profile = some op ∧
        r.control.instruction = some r.pending ∧ r.control.opcode = some op ∧
        ∀ k, r.run k = (.ok ⟨k, k * op.cycles, true⟩, { r with
          stats := ⟨r.stats.instructions + k, r.stats.cycles + k * op.cycles⟩ })) := by
  rcases runFrom_selfLoop_cases n (.start .selfLoop) (.start .steps) m with
    ⟨fault, r, hloop, hsteps⟩ | ⟨done, done', r, hloop, hboundary, hsteps⟩ |
    ⟨done, done', r, op, rest, hloop, hparked, hsteps⟩
  · rw [run, runUntil, runUntil, hloop, hsteps]
    exact ⟨fun _ _ => Iff.rfl, fun _ _ h => by cases h⟩
  · obtain ⟨hcount, hstats⟩ := run_eq_ok_inv hsteps
    rw [run, runUntil, runUntil, hloop, hsteps]
    refine ⟨fun _ _ => ⟨fun h => (by cases h), fun h => (by cases h)⟩, fun _ _ h => ?_⟩
    cases h
    refine ⟨⟨done', hcount, ?_⟩, fun hreached => ?_⟩
    · rw [← hstats]
    · cases hboundary.symm.trans hreached
  · obtain ⟨hcount, hstats⟩ := run_eq_ok_inv hsteps
    rw [run, runUntil, runUntil, hloop, hsteps]
    refine ⟨fun _ _ => ⟨fun h => (by cases h), fun h => (by cases h)⟩, fun _ _ h => ?_⟩
    cases h
    refine ⟨⟨done', hcount, ?_⟩, fun _ => ⟨op, hparked.executes.decodes, ?_, ?_, fun k => ?_⟩⟩
    · rw [← hstats]
      rfl
    · rw [hparked.control_eq, latched]
    · rw [hparked.control_eq, latched]
    · rw [run, runUntil, hparked.runFrom]
      simp [RunOutcome.start, idle]

/-- A jump to itself parks the machine, and idles at three cycles for each time around. -/
theorem selfLoop_transparent_and_permanent_jump :
    let m : Machine := { new ⟨2, .full⟩ with
      memory := ⟨#[Word.encodeImmediate .li .g0 2, Word.encodeRegister .or .ip .g0 .g0]⟩ }
    (m.runUntil .selfLoop 9).1 = .ok ⟨2, 5, true⟩ ∧
      ∀ k, ((m.runUntil .selfLoop 9).2.run k).1 = .ok ⟨k, k * 3, true⟩ := by
  intro m
  have hrun : (m.runUntil .selfLoop 9).1 = .ok ⟨2, 5, true⟩ := by decide
  obtain ⟨op, -, -, hop, hidle⟩ :=
    ((selfLoop_transparent_and_permanent m 9).2 _ _ (Prod.ext hrun rfl)).2 rfl
  have hor : op = .or := Option.some.inj (hop.symm.trans (by decide))
  subst hor
  exact ⟨hrun, fun k => congrArg Prod.fst (hidle k)⟩

end Machine

end Smolisa
