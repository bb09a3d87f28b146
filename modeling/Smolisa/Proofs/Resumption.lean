import Smolisa.Proofs.Agreement
import Smolisa.Proofs.Reachable
import Smolisa.Proofs.Stopped

/-!
# Resuming from a Snapshot

A snapshot holds the registers, the memory and the counters of a machine. It does not hold what
the control unit has latched, nor whether the machine runs. A machine that takes over from a
snapshot starts with nothing latched, and it runs, even if the one that the snapshot was taken
of had stopped. Nobody who goes on calling can tell the difference. What was latched does not
matter, since no instruction looks at it; and a machine that had stopped would stop again,
since its fault is the one that its pending instruction raises, and nothing has changed that.

The two machines do not stand in a relation that every step preserves: the one that takes over
has to fail once to be stopped too. So the first call is different from the others. It leads
from `Machine.Resumes` to `Machine.Alike`, and from there on machines that are alike stay alike.

## Main results

* `Machine.restore_snapshot` — the machine that takes over.
* `Machine.Resumes.answer` — **the first call makes the machines alike.**
* `Machine.restore_snapshot_preserves_future` — **a machine and the one that takes over from
  its snapshot have the same future.**
-/

namespace Smolisa

namespace Call

/-- The call asks for steps, and for at least one. -/
def Advances : Call → Prop
  | .step | .stepTraced => True
  | .run limit | .runUntil _ limit => 0 < limit
  | .load _ | .restore _ | .reset => False

/-- What a machine replies to a call that asks for steps, if the first of them fails. -/
def failure (fault : Fault) : Call → Reply
  | .step | .stepTraced => .stepped (.error fault)
  | .run _ | .runUntil _ _ => .ran (.error fault)
  | .load _ | .restore _ | .reset => .updated (.error fault)

end Call

namespace Machine

/-! ### Calls that fail at once -/

/-- A call that asks for steps fails with the first step, and does no more than that step. -/
theorem answer_of_outcome_error {m : Machine} {fault : Fault}
    (h : m.step.outcome = .error fault) {call : Call} (hcall : call.Advances) :
    (m.answer call).reply = call.failure fault ∧ (m.answer call).machine = m.step.machine := by
  cases call with
  | step | stepTraced => exact ⟨congrArg Reply.stepped h, rfl⟩
  | run limit =>
      obtain ⟨n, rfl⟩ := Nat.exists_eq_add_one.2 hcall
      rw [answer, run, runUntil, runFrom_of_outcome_error _ _ h]
      exact ⟨rfl, rfl⟩
  | runUntil boundary limit =>
      obtain ⟨n, rfl⟩ := Nat.exists_eq_add_one.2 hcall
      rw [answer, runUntil, runFrom_of_outcome_error _ _ h]
      exact ⟨rfl, rfl⟩
  | load _ | restore _ | reset => exact hcall.elim

/-- Machines that agree meet the same conditions of faults. -/
theorem Agree.fault?_eq {a b : Machine} (h : Agree a b) : b.fault? = a.fault? := by
  rw [h.eq]
  rfl

/-! ### Taking over -/

/-- The second machine takes over from the first: it has everything that a snapshot holds, and
it runs. If the first one has stopped, then with the fault of its pending instruction. -/
structure Resumes (a b : Machine) : Prop extends Agree a b where
  stats : a.stats = b.stats
  running : b.status = .running
  latched : ∀ fault, a.status = .stopped fault → a.fault? = some fault

/-- A machine that takes over fails with the fault that the other one has stopped with. -/
theorem Resumes.outcome_eq {a b : Machine} (h : Resumes a b) {fault : Fault}
    (hstop : a.status = .stopped fault) : b.step.outcome = .error fault :=
  outcome_of_fault? h.running (h.fault?_eq.trans (h.latched fault hstop))

/-- **The first call makes the machines alike**, and they reply the same to it. -/
theorem Resumes.answer {a b : Machine} (h : Resumes a b) {call : Call} (hcall : call.Advances) :
    (a.answer call).reply = (b.answer call).reply ∧
      (a.answer call).machine.Alike (b.answer call).machine := by
  cases hstatus : a.status with
  | running =>
      have halike : Alike a b := ⟨h.toAgree, hstatus.trans h.running.symm, h.stats⟩
      exact ⟨(halike.answer call).reply, (halike.answer call).machine⟩
  | stopped fault =>
      have ha : a.step.outcome = .error fault := by rw [step_of_stopped hstatus]
      have hb : b.step.outcome = .error fault := h.outcome_eq hstatus
      obtain ⟨hreplyA, hmachineA⟩ := answer_of_outcome_error ha hcall
      obtain ⟨hreplyB, hmachineB⟩ := answer_of_outcome_error hb hcall
      refine ⟨hreplyA.trans hreplyB.symm, ?_⟩
      rw [hmachineA, hmachineB, machine_of_outcome_error ha, machine_of_outcome_error hb]
      exact ⟨⟨h.config, h.registers, h.memory⟩, rfl, h.stats⟩

/-- A machine and the one that takes over from it answer any list of calls for steps with the
same replies, and show the same after each of them. -/
theorem Resumes.session {a b : Machine} (h : Resumes a b) {calls : List Call}
    (hcalls : ∀ call ∈ calls, call.Advances) :
    List.Forall₂ (fun x y => x.2.reply = y.2.reply ∧ x.2.machine.Alike y.2.machine)
      (a.session calls) (b.session calls) := by
  cases calls with
  | nil => exact .nil
  | cons call rest =>
      have hfirst := h.answer (hcalls call List.mem_cons_self)
      exact .cons hfirst ((hfirst.2.session rest).imp fun _ _ halike =>
        ⟨halike.reply, halike.machine⟩)

/-! ### Snapshots -/

/-- A machine of the same configuration and capacity that a snapshot is restored to becomes the
one that the snapshot was taken of, but for the control unit and the status. -/
theorem restore_snapshot {s t : Machine} (hconfig : t.config = s.config)
    (hcapacity : t.memory.capacity = s.memory.capacity) :
    t.restore s.snapshot = .ok { s with control := .empty, status := .running } := by
  have hload : t.memory.load s.snapshot.memory.words = .ok s.memory :=
    Memory.load_words hcapacity
  rw [restore, hload, hconfig]
  rfl

/-- **A machine and the one that takes over from its snapshot have the same future.** Let one
machine be reachable, running or stopped, and another one have the same configuration, with
the memory that goes with it, and be in any state otherwise. The snapshot of the first is
accepted by the second, which then has that snapshot itself. From then on the two of them give
the same replies to all calls for steps, and have the same registers, memory, counters and
status after each of them. If the first one has stopped with a fault, the second one raises
that fault in its next step. -/
theorem restore_snapshot_preserves_future {config : Config} {s t : Machine}
    (hs : s.Reachable config) (hconfig : t.config = config)
    (hcapacity : t.memory.capacity = config.memoryWords) :
    ∃ t', t.restore s.snapshot = .ok t' ∧ t'.snapshot = s.snapshot ∧
      (∀ calls : List Call, (∀ call ∈ calls, call.Advances) →
        List.Forall₂ (fun x y => x.2.reply = y.2.reply ∧ x.2.machine.Alike y.2.machine)
          (s.session calls) (t'.session calls)) ∧
      ∀ fault, s.status = .stopped fault → t'.step.outcome = .error fault := by
  have hresumes : Resumes s { s with control := .empty, status := .running } :=
    ⟨⟨rfl, rfl, rfl⟩, rfl, rfl, fun _ => hs.fault?_eq⟩
  refine ⟨_, restore_snapshot ?_ ?_, rfl, fun _ => hresumes.session, fun _ => hresumes.outcome_eq⟩
  · exact hconfig.trans hs.config_eq.symm
  · exact hcapacity.trans hs.capacity_eq.symm

/-- A machine that was built with a program of two words and has run past it, and another one that
is in the middle of a program of its own. The second takes over from the first, and both answer the
same calls. -/
theorem restore_snapshot_preserves_future_stopped :
    let config : Config := ⟨2, .full⟩
    let built : Machine := (new config).after
      [.load #[.encodeImmediate .li .g0 8, .encodeImmediate .liu .g1 3]]
    let s : Machine := built.after [.run 5]
    let t : Machine := (new config).after [.load #[.encodeImmediate .li .g7 1], .step]
    let fault : Fault := .outOfBoundsAddress 2 2
    let calls : List Call := [.stepTraced, .run 3, .runUntil .selfLoop 1]
    s.status = .stopped fault ∧ t.status = .running ∧
      ∃ t', t.restore s.snapshot = .ok t' ∧ t'.snapshot = s.snapshot ∧
        (s.session calls).map (·.2.reply) =
          [.stepped (.error fault), .ran (.error fault), .ran (.error fault)] ∧
        List.Forall₂ (fun x y => x.2.reply = y.2.reply ∧ x.2.machine.Alike y.2.machine)
          (s.session calls) (t'.session calls) ∧
        t'.step.outcome = .error fault := by
  intro config built s t fault calls
  have hbuilt : ofImage config
      #[.encodeImmediate .li .g0 8, .encodeImmediate .liu .g1 3] = .ok built := by
    rfl
  have hs : s.Reachable config := (Reachable.of_ofImage hbuilt).after _
  have ht : t.Reachable config := Reachable.new.after _
  have hstop : s.status = .stopped fault := by decide
  obtain ⟨t', hrestore, hsnapshot, hsession, hfault⟩ :=
    restore_snapshot_preserves_future hs ht.config_eq ht.capacity_eq
  have hcalls : ∀ call ∈ calls, call.Advances := by
    simp [calls, Call.Advances]
  have hreplies : ∀ x ∈ s.session calls, ¬ x.1.Restarts x.2 := by
    simp [calls, session, Call.Restarts]
  refine ⟨hstop, by decide, t', hrestore, hsnapshot, ?_, hsession calls hcalls, hfault _ hstop⟩
  rw [(session_of_stopped hstop hreplies).1]
  rfl

end Machine

end Smolisa
