import Smolisa.Proofs.Call
import Smolisa.Proofs.Run

/-!
# Histories

The history of a machine is the list of the instructions that it has retired, over any number of
calls. A call for a step adds at most one of them, a run as many as it gets to before it ends, and
a call that puts a new state into the machine adds none. This module reads the history off the
calls, and packages the induction over it: a relation between histories and machines holds after
any calls that do not restart the machine, if a retired instruction keeps it when it is added, and
a failing step keeps it as it is.

## Main results

* `Machine.HistoryInvariant.runFrom` — from single steps to the loop of a run.
* `Machine.HistoryInvariant.after` — **what single steps keep of a history, every list of calls
  keeps** that does not restart the machine.
* `Machine.answer_preserves_of_not_restarts` — the same of a single call, for what is said of the
  machine alone.
-/

namespace Smolisa

namespace Machine

/-- The instruction that a step retires, if it retires one. -/
def stepRetired (m : Machine) : List Retirement :=
  m.step.outcome.toOption.toList

/-- The instructions that a run retires, in order. -/
def runRetired (boundary : Boundary) : (limit : Nat) → Machine → List Retirement
  | 0, _ => []
  | limit + 1, m =>
    match m.step.outcome with
    | .error _ => []
    | .ok retirement =>
      if boundary = .selfLoop ∧ m.step.changed = false then
        [retirement]
      else
        retirement :: runRetired boundary limit m.step.machine

end Machine

/-- The instructions that a machine retires in answer to a call, in order. -/
def Call.retired (m : Machine) : Call → List Retirement
  | .step | .stepTraced => m.stepRetired
  | .run steps => m.runRetired .steps steps
  | .runUntil boundary limit => m.runRetired boundary limit
  | .load _ | .restore _ | .reset => []

namespace Machine

/-- The instructions that a machine retires in answer to a list of calls, in order. -/
def retired (m : Machine) : List Call → List Retirement
  | [] => []
  | call :: rest => call.retired m ++ (m.answer call).machine.retired rest

/-- A relation between the history of a machine and the machine that single steps keep. -/
structure HistoryInvariant (P : List Retirement → Machine → Prop) : Prop where
  retires : ∀ {history m r}, P history m → m.step.outcome = .ok r →
    P (history ++ [r]) m.step.machine
  fails : ∀ {history m fault}, P history m → m.step.outcome = .error fault →
    P history m.step.machine

namespace HistoryInvariant

variable {P : List Retirement → Machine → Prop} (hP : HistoryInvariant P)
  {history : List Retirement} {m : Machine} (h : P history m)
include hP h

/-- A step adds to the history what it retires. -/
theorem step : P (history ++ m.stepRetired) m.step.machine := by
  rw [stepRetired]
  cases hout : m.step.outcome with
  | error fault =>
      rw [Except.toOption, Option.toList_none, List.append_nil]
      exact hP.fails h hout
  | ok r => exact hP.retires h hout

/-- What single steps keep, the loop of a run keeps. -/
theorem runFrom (boundary : Boundary) (limit : Nat) (soFar : RunOutcome) :
    P (history ++ m.runRetired boundary limit) (runFrom boundary limit soFar m).2 := by
  induction limit generalizing history m soFar with
  | zero =>
      rw [runRetired, List.append_nil]
      exact h
  | succ limit ih =>
      rw [runRetired, runFrom_succ]
      cases hout : m.step.outcome with
      | error fault =>
          rw [List.append_nil]
          exact hP.fails h hout
      | ok r =>
          dsimp only
          split
          · exact hP.retires h hout
          · rw [List.append_cons]
            exact ih (hP.retires h hout) _

/-- What single steps keep, every call keeps that does not restart the machine. -/
theorem answer {call : Call} (hcall : ¬ call.Restarts (m.answer call)) :
    P (history ++ call.retired m) (m.answer call).machine := by
  cases call with
  | step | stepTraced => exact hP.step h
  | run steps => exact hP.runFrom h _ _ _
  | runUntil boundary limit => exact hP.runFrom h _ _ _
  | load image =>
      rw [Call.restarts_load_iff, Nat.not_le] at hcall
      rw [answer_load_of_lt hcall, Call.retired, List.append_nil]
      exact h
  | restore s =>
      rw [Call.restarts_restore_iff, Nat.not_le] at hcall
      rw [answer_restore_of_lt hcall, Call.retired, List.append_nil]
      exact h
  | reset => exact absurd trivial hcall

/-- **What single steps keep of a history, every list of calls keeps** that does not restart the
machine. -/
theorem after {calls : List Call} (hcalls : ∀ x ∈ m.session calls, ¬ x.1.Restarts x.2) :
    P (history ++ m.retired calls) (m.after calls) := by
  induction calls generalizing history m with
  | nil =>
      rw [retired, List.append_nil]
      exact h
  | cons call rest ih =>
      have hfirst := hP.answer h (hcalls _ List.mem_cons_self)
      have hrest := ih hfirst fun x hx => hcalls x (List.mem_cons_of_mem _ hx)
      rwa [List.append_assoc] at hrest

end HistoryInvariant

/-- What steps preserve, every call preserves that does not restart the machine. This is the case
of a history that nobody looks at. -/
theorem answer_preserves_of_not_restarts {P : Machine → Prop}
    (hstep : ∀ m, P m → P m.step.machine) {m : Machine} (h : P m) {call : Call}
    (hcall : ¬ call.Restarts (m.answer call)) : P (m.answer call).machine := by
  have hP : HistoryInvariant fun _ m => P m := ⟨fun h _ => hstep _ h, fun h _ => hstep _ h⟩
  exact @HistoryInvariant.answer _ hP [] m h call hcall

end Machine

end Smolisa
