import Smolisa.Proofs.Call
import Smolisa.Proofs.Step

/-!
# Stopped Machines

A fault is precise: the step that raises it leaves registers, memory, counters and
configuration as they were, whatever the micro-cycles in front of the failure had staged. And
a fault is final: the machine that it stopped answers every step and every run with the same
fault, tells an observer nothing, and stays what it is in every field, until it is restarted.

## Main results

* `Machine.answer_of_stopped` — the answer of a stopped machine to a call that does not
  restart it.
* `Machine.session_of_stopped` — the same for sessions of any length, by induction on the
  calls.
* `Machine.precise_and_absorbing` — **faults are precise and absorbing.**
-/

namespace Smolisa

namespace Machine

/-! ### Failing steps -/

/-- A step that fails changes nothing but the control unit and the status. -/
theorem machine_of_outcome_error {m : Machine} {fault : Fault}
    (h : m.step.outcome = .error fault) :
    m.step.machine =
      { m with control := m.step.machine.control, status := .stopped fault } := by
  rcases m.step_cases with ⟨_, hstop, hstep⟩ | ⟨-, _, _, -, hstep⟩ | ⟨-, _, -, hstep⟩
  · rw [hstep] at h ⊢
    cases h
    rw [← hstop]
  · rw [hstep] at h ⊢
    cases h
    rfl
  · rw [hstep] at h
    cases h

/-- A step that fails reports its fault, unless it was raised before. -/
theorem events_of_outcome_error {m : Machine} {fault : Fault}
    (h : m.step.outcome = .error fault) :
    m.step.events = if m.status = .running then [.faultRaised fault] else [] := by
  rcases m.step_cases with ⟨_, hstop, hstep⟩ | ⟨hrun, _, _, -, hstep⟩ | ⟨-, _, -, hstep⟩
  · rw [hstep, if_neg]
    rw [hstop]
    exact Status.noConfusion
  · rw [hstep] at h ⊢
    cases h
    rw [if_pos hrun]
    rfl
  · rw [hstep] at h
    cases h

/-! ### Calls to a stopped machine -/

/-- A run of a stopped machine repeats its fault, unless no step is asked for. -/
theorem runUntil_succ_of_stopped {m : Machine} {fault : Fault} (h : m.status = .stopped fault)
    (boundary : Boundary) (limit : Nat) :
    m.runUntil boundary (limit + 1) = (.error fault, m) := by
  rw [runUntil, runFrom_succ, step_of_stopped h]

end Machine

/-- What a stopped machine replies to a call that does not restart it. -/
def Call.stoppedReply (m : Machine) (fault : Fault) : Call → Reply
  | .step | .stepTraced => .stepped (.error fault)
  | .run 0 => .ran (.ok ⟨0, 0, true⟩)
  | .run (_ + 1) => .ran (.error fault)
  | .runUntil boundary 0 => .ran (.ok ⟨0, 0, boundary == .steps⟩)
  | .runUntil _ (_ + 1) => .ran (.error fault)
  | .load image => .updated (.error (.imageTooLarge image.size m.memory.capacity))
  | .restore snapshot =>
    .updated (.error (.imageTooLarge snapshot.memory.capacity m.memory.capacity))
  | .reset => .updated (.ok ())

namespace Machine

/-- **A stopped machine does not move.** Its answer to a call that does not restart it is its
fault, or a rejection, and the machine is the same in every field. -/
theorem answer_of_stopped {m : Machine} {fault : Fault} (h : m.status = .stopped fault)
    {call : Call} (hcall : ¬ call.Restarts (m.answer call)) :
    m.answer call = ⟨call.stoppedReply m fault, [], m⟩ := by
  have hstep := step_of_stopped h
  cases call with
  | step | stepTraced => rw [answer, hstep]; rfl
  | run steps =>
      cases steps with
      | zero => rfl
      | succ n => rw [answer, run, runUntil_succ_of_stopped h]; rfl
  | runUntil boundary limit =>
      cases limit with
      | zero => rfl
      | succ n => rw [answer, runUntil_succ_of_stopped h]; rfl
  | load image =>
      rw [Call.restarts_load_iff, Nat.not_le] at hcall
      rw [answer, load_of_lt hcall]
      rfl
  | restore s =>
      rw [Call.restarts_restore_iff, Nat.not_le] at hcall
      rw [answer, restore_of_lt hcall]
      rfl
  | reset => exact absurd trivial hcall

/-- **A stopped machine stays stopped.** However many calls it gets, as long as none of them
restarts it, it answers them all from the state that it stopped in. -/
theorem session_of_stopped {m : Machine} {fault : Fault} (h : m.status = .stopped fault)
    {calls : List Call} (hcalls : ∀ x ∈ m.session calls, ¬ x.1.Restarts x.2) :
    m.session calls = calls.map (fun call => (call, ⟨call.stoppedReply m fault, [], m⟩)) ∧
      m.after calls = m := by
  induction calls with
  | nil => exact ⟨rfl, rfl⟩
  | cons call rest ih =>
      have hfirst := answer_of_stopped h (hcalls _ List.mem_cons_self)
      have hrest : ∀ x ∈ m.session rest, ¬ x.1.Restarts x.2 := by
        intro x hx
        refine hcalls x (List.mem_cons_of_mem _ ?_)
        rw [hfirst]
        exact hx
      obtain ⟨hsession, hafter⟩ := ih hrest
      rw [session, after, hfirst]
      exact ⟨congrArg (_ :: ·) hsession, hafter⟩

/-- A call to a stopped machine ends the stop exactly if it restarts the machine. -/
theorem status_answer_ne_iff {m : Machine} {fault : Fault} (h : m.status = .stopped fault)
    (call : Call) :
    (m.answer call).machine.status ≠ .stopped fault ↔ call.Restarts (m.answer call) := by
  constructor
  · intro hne
    refine Classical.byContradiction fun hcall => hne ?_
    rw [answer_of_stopped h hcall]
    exact h
  · intro hcall
    rw [Call.status_of_restarts hcall]
    exact Status.noConfusion

/-- **Faults are precise and absorbing.** A step that fails keeps registers, memory, counters
and configuration, stops the machine with its fault, and shows an observer that fault and
nothing else, or nothing at all if the machine had stopped before. A stopped machine answers
any list of calls that do not restart it with its fault, silently and unchanged in every
field; and a call ends the stop exactly if it restarts the machine. -/
theorem precise_and_absorbing (m : Machine) (fault : Fault) :
    (m.step.outcome = .error fault →
      m.step.machine.registers = m.registers ∧
      m.step.machine.memory = m.memory ∧
      m.step.machine.stats = m.stats ∧
      m.step.machine.config = m.config ∧
      m.step.machine.status = .stopped fault ∧
      m.step.events = if m.status = .running then [.faultRaised fault] else []) ∧
    (m.status = .stopped fault →
      (∀ calls, (∀ x ∈ m.session calls, ¬ x.1.Restarts x.2) →
        m.session calls =
            calls.map (fun call => (call, ⟨call.stoppedReply m fault, [], m⟩)) ∧
          m.after calls = m) ∧
      ∀ call, (m.answer call).machine.status ≠ .stopped fault ↔
        call.Restarts (m.answer call)) := by
  constructor
  · intro h
    have hmachine := machine_of_outcome_error h
    refine ⟨?_, ?_, ?_, ?_, ?_, events_of_outcome_error h⟩ <;> rw [hmachine]
  · intro h
    exact ⟨fun _ => session_of_stopped h, status_answer_ne_iff h⟩

/-- A machine of two words that has loaded an address into a register, and fails when it stores
there. Neither steps and runs nor a program and a snapshot of three words get it to move. -/
theorem precise_and_absorbing_store :
    let m : Machine := (new ⟨2, .full⟩).after
      [.load #[.encodeImmediate .li .g0 8, .encodeRegister .sw .g0 .g0 .g0], .step]
    let fault : Fault := .outOfBoundsAddress 4 2
    let calls : List Call := [.stepTraced, .run 3, .runUntil .selfLoop 0, .load #[1, 2, 3],
      .restore (new ⟨3, .full⟩).snapshot]
    m.step.outcome = .error fault ∧
      m.step.events = [.faultRaised fault] ∧
      m.step.machine.registers.get .g0 = 8 ∧ m.step.machine.registers.ip = 2 ∧
      m.step.machine.stats = ⟨1, 2⟩ ∧
      (m.step.machine.session calls).map (·.2.reply) =
        [.stepped (.error fault), .ran (.error fault), .ran (.ok ⟨0, 0, false⟩),
          .updated (.error (.imageTooLarge 3 2)), .updated (.error (.imageTooLarge 3 2))] ∧
      m.step.machine.after calls = m.step.machine := by
  intro m fault calls
  have hstep : m.step.outcome = .error fault := by decide
  obtain ⟨hregisters, -, hstats, -, hstatus, hevents⟩ :=
    (precise_and_absorbing m fault).1 hstep
  have hcalls : ∀ x ∈ m.step.machine.session calls, ¬ x.1.Restarts x.2 := by
    intro x hx
    simp only [calls, session, List.mem_cons, List.not_mem_nil, or_false] at hx
    rcases hx with rfl | rfl | rfl | rfl | rfl
    · exact id
    · exact id
    · exact id
    · exact mt Call.restarts_load_iff.1 (by decide)
    · exact mt Call.restarts_restore_iff.1 (by decide)
  obtain ⟨hsession, hafter⟩ :=
    ((precise_and_absorbing m.step.machine fault).2 hstatus).1 calls hcalls
  refine ⟨hstep, hevents, ?_, ?_, ?_, ?_, hafter⟩
  · rw [hregisters]
    rfl
  · rw [hregisters]
    rfl
  · rw [hstats]
    rfl
  · have hcapacity : m.step.machine.memory.capacity = 2 := by decide
    have hsnapshot : (new ⟨3, .full⟩).snapshot.memory.capacity = 3 := by decide
    rw [hsession]
    simp only [calls, List.map_cons, List.map_nil, Call.stoppedReply, hcapacity, hsnapshot]
    rfl

end Machine

end Smolisa
