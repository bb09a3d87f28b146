import Smolisa.Proofs.Run
import Smolisa.Proofs.Stopped

/-!
# Runs as Repeated Steps

A run could be done by hand: one takes a step, then another one, and stops when the steps asked
for are taken, when one of them fails, or, in a run to a self-loop, when one of them has retired
an instruction that changed neither a register nor a memory word. `Machine.RunsTo` is the
relation between a machine and what this procedure leads to. It is told by single steps and by
comparing registers and memory before and after them; it has no loop, and it does not know the
flag by which a step itself reports whether it changed anything.

The run as it is executed is a loop that keeps a report and leaves it in two ways. It leads to
the same place. Since steps in a row can be divided anywhere, so can runs.

## Main results

* `Machine.idles_iff` — the flag of a step is right about registers and memory.
* `Machine.GoesOn.runFrom` — **the loop of a run, after a number of steps.**
* `Machine.runUntil_eq_iff` — a run is what single steps lead to.
* `Machine.runUntil_add` — **runs split anywhere.**
* `Machine.run_eq_error_iff` — a run fails exactly if the machine fails before the last step.
* `Machine.run_is_repeated_step` — all of it, with the status of the machine.
-/

namespace Smolisa

/-- The report of one run and a second one after it. -/
def RunOutcome.append (first second : RunOutcome) : RunOutcome where
  steps := first.steps + second.steps
  cycles := first.cycles + second.cycles
  boundaryReached := second.boundaryReached

/-- The status of a machine that ran, after a run with a given outcome. -/
def Status.afterRun : Except Fault RunOutcome → Status
  | .ok _ => .running
  | .error fault => .stopped fault

namespace Machine

/-! ### What a single step does to a run -/

/-- The next step retires an instruction. -/
def Retires (m : Machine) : Prop :=
  ∃ retirement, m.step.outcome = .ok retirement

/-- The next step retires an instruction that leaves registers and memory as they are. -/
structure Idles (m : Machine) : Prop where
  retires : m.Retires
  registers_eq : m.step.machine.registers = m.registers
  memory_eq : m.step.machine.memory = m.memory

/-- The number of clock cycles of the instruction that the next step retires. -/
def nextCycles (m : Machine) : Nat :=
  match m.step.outcome with
  | .ok retirement => retirement.cycles
  | .error _ => 0

/-- The number of clock cycles of the instructions that a number of steps retire. -/
def cyclesOf (m : Machine) (k : Nat) : Nat :=
  ∑ i ∈ Finset.range k, (m.steps i).nextCycles

/-- A run goes on over a number of steps: each of them retires an instruction, and in a run to
a self-loop none of them idles. -/
def GoesOn (m : Machine) (boundary : Boundary) (k : Nat) : Prop :=
  ∀ i < k, (m.steps i).Retires ∧ (boundary = .selfLoop → ¬ (m.steps i).Idles)

/-- What single steps lead to, if they are repeated until a limit is reached, until one of them
fails or until one of them idles where that is a boundary; with the report to be given of
them. -/
inductive RunsTo (m : Machine) (boundary : Boundary) (limit : Nat) :
    Except Fault RunOutcome × Machine → Prop
  /-- All the steps have been taken. -/
  | limit (goes : m.GoesOn boundary limit) :
      m.RunsTo boundary limit
        (.ok ⟨limit, m.cyclesOf limit, boundary == .steps⟩, m.steps limit)
  /-- The step after the first `k` fails. -/
  | fault {k : Nat} {fault : Fault} (lt : k < limit) (goes : m.GoesOn boundary k)
      (fails : (m.steps k).step.outcome = .error fault) :
      m.RunsTo boundary limit (.error fault, m.steps (k + 1))
  /-- The step after the first `k` idles, and that is where the run is to end. -/
  | idle {k : Nat} (lt : k < limit) (goes : m.GoesOn boundary k)
      (idles : (m.steps k).Idles) (selfLoop : boundary = .selfLoop) :
      m.RunsTo boundary limit (.ok ⟨k + 1, m.cyclesOf (k + 1), true⟩, m.steps (k + 1))

/-! ### Steps in a row -/

/-- Steps in a row can be divided anywhere. -/
theorem steps_add (m : Machine) (a b : Nat) : m.steps (a + b) = (m.steps a).steps b := by
  induction b with
  | zero => rfl
  | succ b ih => exact congrArg (fun m' : Machine => m'.step.machine) ih

/-- So can the cycles that they take. -/
theorem cyclesOf_add (m : Machine) (a b : Nat) :
    m.cyclesOf (a + b) = m.cyclesOf a + (m.steps a).cyclesOf b := by
  simp only [cyclesOf, Finset.sum_range_add, steps_add]

theorem cyclesOf_succ (m : Machine) (k : Nat) :
    m.cyclesOf (k + 1) = m.cyclesOf k + (m.steps k).nextCycles :=
  Finset.sum_range_succ _ k

theorem nextCycles_of_outcome_ok {m : Machine} {r : Retirement} (h : m.step.outcome = .ok r) :
    m.nextCycles = r.cycles := by
  rw [nextCycles, h]

/-- **The flag of a step is right about registers and memory**: of a step that retires an
instruction it says whether they are the same afterwards. -/
theorem idles_iff {m : Machine} (h : m.Retires) : m.Idles ↔ m.step.changed = false := by
  obtain ⟨r, hr⟩ := h
  have hchanged : m.step.changed = false ↔
      m.step.machine.registers = m.registers ∧ m.step.machine.memory = m.memory := by
    obtain ⟨-, op, -, hstep⟩ := step_of_outcome_ok hr
    rw [hstep, retirement, Bool.or_eq_false_iff, bne_eq_false_iff_eq, bne_eq_false_iff_eq]
  rw [hchanged]
  constructor
  · intro hidle
    exact ⟨hidle.registers_eq, hidle.memory_eq⟩
  · rintro ⟨hregisters, hmemory⟩
    exact ⟨⟨r, hr⟩, hregisters, hmemory⟩

section GoesOn

variable {m : Machine} {boundary : Boundary}

theorem goesOn_zero : m.GoesOn boundary 0 := by
  intro i hi
  omega

theorem goesOn_succ_iff {k : Nat} :
    m.GoesOn boundary (k + 1) ↔ m.GoesOn boundary k ∧ (m.steps k).Retires ∧
      (boundary = .selfLoop → ¬ (m.steps k).Idles) :=
  Nat.forall_lt_succ_right

/-- A run of a number of steps goes on as long as the steps retire. -/
theorem goesOn_steps_iff {k : Nat} : m.GoesOn .steps k ↔ ∀ i < k, (m.steps i).Retires := by
  constructor
  · intro h i hi
    exact (h i hi).1
  · intro h i hi
    exact ⟨h i hi, fun heq => Boundary.noConfusion heq⟩

/-- A run that goes on, and goes on from where it has come to, goes on all the way. -/
theorem GoesOn.add {a b : Nat} (ha : m.GoesOn boundary a)
    (hb : (m.steps a).GoesOn boundary b) : m.GoesOn boundary (a + b) := by
  intro i hi
  rcases Nat.lt_or_ge i a with hlt | hle
  · exact ha i hlt
  · obtain ⟨j, rfl⟩ := Nat.exists_eq_add_of_le hle
    rw [steps_add]
    exact hb j (by omega)

/-! ### The loop of a run -/

/-- The loop does not leave at a step that retires and does not end the run. -/
theorem runFrom_of_goesOn_one {r : Retirement} (hr : m.step.outcome = .ok r)
    (hidle : boundary = .selfLoop → ¬ m.Idles) (limit : Nat) (soFar : RunOutcome) :
    runFrom boundary (limit + 1) soFar m =
      runFrom boundary limit (soFar.retire r.cycles) m.step.machine := by
  cases boundary with
  | steps => exact runFrom_steps_of_outcome_ok limit soFar hr
  | selfLoop =>
      have hchanged : m.step.changed = true := by
        rw [← Bool.not_eq_false, ← idles_iff ⟨r, hr⟩]
        exact hidle rfl
      exact runFrom_selfLoop_of_changed limit soFar hr hchanged

/-- **The loop of a run, after a number of steps.** It has counted them and their cycles, and
it stands at the machine that they lead to. -/
theorem GoesOn.runFrom {k : Nat} (h : m.GoesOn boundary k) (rest : Nat) (soFar : RunOutcome) :
    runFrom boundary (k + rest) soFar m =
      Machine.runFrom boundary rest
        ⟨soFar.steps + k, soFar.cycles + m.cyclesOf k, soFar.boundaryReached⟩ (m.steps k) := by
  induction k generalizing rest with
  | zero =>
      rw [Nat.zero_add]
      rfl
  | succ k ih =>
      obtain ⟨hinit, ⟨r, hr⟩, hidle⟩ := goesOn_succ_iff.1 h
      have hlimit : k + 1 + rest = k + (rest + 1) := by omega
      rw [hlimit, ih hinit, runFrom_of_goesOn_one hr hidle, cyclesOf_succ,
        nextCycles_of_outcome_ok hr, ← Nat.add_assoc soFar.cycles]
      rfl

end GoesOn

section RunsTo

variable {m : Machine} {boundary : Boundary} {limit : Nat}
  {r : Except Fault RunOutcome × Machine}

/-- Single steps lead somewhere: the steps go on up to the limit, or one of them is the first
that does not. -/
theorem exists_runsTo (m : Machine) (boundary : Boundary) (limit : Nat) :
    ∃ r, m.RunsTo boundary limit r := by
  induction limit with
  | zero => exact ⟨_, .limit goesOn_zero⟩
  | succ n ih =>
      obtain ⟨r, hr⟩ := ih
      cases hr with
      | fault lt goes fails => exact ⟨_, .fault (Nat.lt_succ_of_lt lt) goes fails⟩
      | idle lt goes idles selfLoop =>
          exact ⟨_, .idle (Nat.lt_succ_of_lt lt) goes idles selfLoop⟩
      | limit goes =>
          cases hout : (m.steps n).step.outcome with
          | error fault => exact ⟨_, .fault n.lt_succ_self goes hout⟩
          | ok retirement =>
              by_cases hidle : boundary = .selfLoop ∧ (m.steps n).Idles
              · exact ⟨_, .idle n.lt_succ_self goes hidle.2 hidle.1⟩
              · exact ⟨_, .limit (goesOn_succ_iff.2 ⟨goes, ⟨_, hout⟩, not_and.1 hidle⟩)⟩

/-- Where single steps lead, the run leads. -/
theorem RunsTo.runUntil_eq (h : m.RunsTo boundary limit r) : m.runUntil boundary limit = r := by
  cases h with
  | limit goes =>
      have hloop := goes.runFrom 0 (.start boundary)
      simpa [runUntil, Machine.runFrom, RunOutcome.start] using hloop
  | @fault k fault lt goes fails =>
      obtain ⟨rest, rfl⟩ := Nat.exists_eq_add_of_lt lt
      rw [runUntil, Nat.add_assoc, goes.runFrom, runFrom_of_outcome_error rest _ fails]
      rfl
  | @idle k lt goes idles selfLoop =>
      subst selfLoop
      obtain ⟨rest, rfl⟩ := Nat.exists_eq_add_of_lt lt
      obtain ⟨retirement, hout⟩ := idles.retires
      have hchanged := (idles_iff idles.retires).1 idles
      rw [runUntil, Nat.add_assoc, goes.runFrom,
        runFrom_selfLoop_of_unchanged rest _ hout hchanged, cyclesOf_succ,
        nextCycles_of_outcome_ok hout]
      simp [RunOutcome.retire, RunOutcome.start, steps]

/-- A run is what single steps lead to. -/
theorem runUntil_eq_iff : m.runUntil boundary limit = r ↔ m.RunsTo boundary limit r := by
  constructor
  · rintro rfl
    obtain ⟨r, hr⟩ := m.exists_runsTo boundary limit
    rw [hr.runUntil_eq]
    exact hr
  · exact RunsTo.runUntil_eq

/-! ### Splitting runs -/

/-- What single steps lead to from where a run has come to, they lead to from its start; the
report of the run so far is added. -/
theorem RunsTo.append {a : Nat} (ha : m.GoesOn boundary a) (reached : Bool)
    (h : (m.steps a).RunsTo boundary limit r) :
    m.RunsTo boundary (a + limit)
      (r.1.map (RunOutcome.append ⟨a, m.cyclesOf a, reached⟩), r.2) := by
  cases h with
  | limit goes =>
      have h := RunsTo.limit (ha.add goes)
      rwa [cyclesOf_add, steps_add] at h
  | @fault k fault lt goes fails =>
      rw [← steps_add] at fails
      have h := RunsTo.fault (Nat.add_lt_add_left lt a) (ha.add goes) fails
      rwa [Nat.add_assoc, steps_add] at h
  | @idle k lt goes idles selfLoop =>
      rw [← steps_add] at idles
      have h := RunsTo.idle (Nat.add_lt_add_left lt a) (ha.add goes) idles selfLoop
      rwa [Nat.add_assoc, cyclesOf_add, steps_add] at h

end RunsTo

/-- One run and then another one from where the first one ended, unless it failed there or
stopped at a self-loop. The second report is added to the first. -/
def runTwice (m : Machine) (boundary : Boundary) (first second : Nat) :
    Except Fault RunOutcome × Machine :=
  match m.runUntil boundary first with
  | (.error fault, m') => (.error fault, m')
  | (.ok done, m') =>
    if boundary = .selfLoop ∧ done.boundaryReached = true then
      (.ok done, m')
    else
      let rest := m'.runUntil boundary second
      (rest.1.map done.append, rest.2)

/-- **Runs split anywhere.** -/
theorem runUntil_add (m : Machine) (boundary : Boundary) (a b : Nat) :
    m.runUntil boundary (a + b) = m.runTwice boundary a b := by
  obtain ⟨r, hr⟩ := m.exists_runsTo boundary a
  rw [runTwice, hr.runUntil_eq]
  refine RunsTo.runUntil_eq ?_
  cases hr with
  | fault lt goes fails => exact .fault (Nat.lt_add_right b lt) goes fails
  | idle lt goes idles selfLoop =>
      dsimp only
      rw [if_pos ⟨selfLoop, rfl⟩]
      exact .idle (Nat.lt_add_right b lt) goes idles selfLoop
  | limit goes =>
      dsimp only
      rw [if_neg]
      · exact (runUntil_eq_iff.1 rfl).append goes _
      · rintro ⟨rfl, hreached⟩
        cases hreached

/-! ### Runs that fail, and the status after a run -/

/-- The machine retires `k` instructions, and then it fails with a fault. -/
structure FailsAfter (m : Machine) (k : Nat) (fault : Fault) : Prop where
  retires : ∀ i < k, (m.steps i).Retires
  fails : (m.steps k).step.outcome = .error fault

/-- A run fails exactly if one of its steps does, and it leaves the machine behind that this
step leaves. -/
theorem run_eq_error_iff {m m' : Machine} {n : Nat} {fault : Fault} :
    m.run n = (.error fault, m') ↔ ∃ k < n, m.FailsAfter k fault ∧ m' = m.steps (k + 1) := by
  rw [run, runUntil_eq_iff]
  constructor
  · intro h
    cases h with
    | @fault k _ lt goes fails => exact ⟨k, lt, ⟨goesOn_steps_iff.1 goes, fails⟩, rfl⟩
  · rintro ⟨k, lt, h, rfl⟩
    exact .fault lt (goesOn_steps_iff.2 h.retires) h.fails

/-- A machine runs as long as its steps retire. -/
theorem status_steps_of_goesOn {m : Machine} {boundary : Boundary} {k : Nat}
    (running : m.status = .running) (h : m.GoesOn boundary k) :
    (m.steps k).status = .running := by
  induction k with
  | zero => exact running
  | succ k ih =>
      obtain ⟨-, ⟨r, hr⟩, -⟩ := goesOn_succ_iff.1 h
      obtain ⟨hrun, op, -, hstep⟩ := step_of_outcome_ok hr
      rw [steps, hstep]
      exact hrun

/-- The status after a run tells whether it has failed, and with which fault. -/
theorem RunsTo.status_eq {m : Machine} {boundary : Boundary} {limit : Nat}
    {r : Except Fault RunOutcome × Machine} (running : m.status = .running)
    (h : m.RunsTo boundary limit r) : r.2.status = Status.afterRun r.1 := by
  cases h with
  | limit goes => exact status_steps_of_goesOn running goes
  | fault lt goes fails => exact congrArg Machine.status (machine_of_outcome_error fails)
  | @idle k lt goes idles selfLoop =>
      obtain ⟨r, hr⟩ := idles.retires
      obtain ⟨hrun, op, -, hstep⟩ := step_of_outcome_ok hr
      rw [steps, hstep]
      exact hrun

/-- **A run is a repeated step, and it splits anywhere.** A run of at most `limit` steps leads
to the report and the machine that single steps lead to: all of them retire, or one of them
fails, or, in a run to a self-loop, one of them leaves registers and memory as they are. A run
of `a + b` steps is one of `a` steps and then, unless it failed or stopped at a self-loop, one of
`b` steps. A machine that ran before a run runs after it if the run did not fail, and has
stopped with the fault of the run otherwise. -/
theorem run_is_repeated_step (m : Machine) :
    (∀ boundary limit r, m.runUntil boundary limit = r ↔ m.RunsTo boundary limit r) ∧
    (∀ boundary a b, m.runUntil boundary (a + b) = m.runTwice boundary a b) ∧
    (m.status = .running → ∀ boundary limit,
      (m.runUntil boundary limit).2.status =
        Status.afterRun (m.runUntil boundary limit).1) := by
  refine ⟨fun _ _ _ => runUntil_eq_iff, m.runUntil_add, fun running _ _ => ?_⟩
  exact RunsTo.status_eq running (runUntil_eq_iff.1 rfl)

/-- A program of two instructions, the second of which jumps to itself. A run to the self-loop
may be interrupted in front of the jump. -/
theorem run_is_repeated_step_jump :
    let m : Machine := { new ⟨2, .full⟩ with
      memory := ⟨#[Word.encodeImmediate .li .g0 2, Word.encodeRegister .or .ip .g0 .g0]⟩ }
    m.RunsTo .selfLoop 9 (m.runUntil .selfLoop 9) ∧
      (m.runTwice .selfLoop 1 8).1 = .ok ⟨2, 5, true⟩ ∧
      m.status = .running ∧ (m.runUntil .selfLoop 9).2.status = .running := by
  intro m
  obtain ⟨hsteps, hsplit, hstatus⟩ := run_is_repeated_step m
  have hrun : (m.runUntil .selfLoop (1 + 8)).1 = .ok ⟨2, 5, true⟩ := by decide
  refine ⟨(hsteps .selfLoop 9 _).1 rfl, ?_, rfl, ?_⟩
  · rw [← hsplit, hrun]
  · rw [hstatus rfl, hrun, Status.afterRun]

end Machine

end Smolisa
