import Smolisa.Machine.Run

/-!
# Calls and Sessions

Whoever embeds a machine drives it by calls: single steps with or without an observer, runs,
and the calls that put a new state into it from outside. This module gives the calls a type of
their own, so that statements can range over every order in which they may come. A machine
answers a call with a reply, with what an observer sees, and with the machine that it is
afterwards; a `session` is the list of its answers to a list of calls.

A load or a restore may be rejected, and then it is as if it had not been called. A reset is
never rejected. These three are the only calls that can *restart* a machine.

## Main results

* `Call.restarts_load_iff` and `Call.restarts_restore_iff` — a load or a restore restarts a
  machine exactly if what it puts into memory fits.
* `Call.status_of_restarts` — a call that restarts a machine leaves it running.
-/

namespace Smolisa

/-- Something that the owner of a machine can ask of it. -/
inductive Call
  | step
  | stepTraced
  | run (steps : Nat)
  | runUntil (boundary : Boundary) (limit : Nat)
  | load (image : Array Word)
  | restore (snapshot : Snapshot)
  | reset

/-- What a call returns to its caller. -/
inductive Reply
  /-- The outcome of a step. -/
  | stepped (outcome : Except Fault Retirement)
  /-- The outcome of a run. -/
  | ran (outcome : Except Fault RunOutcome)
  /-- Whether a new state was accepted. -/
  | updated (outcome : Except Fault Unit)

/-- The answer of a machine to a call. -/
structure Response where
  /-- What the call returns. -/
  reply : Reply
  /-- What an observer saw, in order. Only a traced step has an observer. -/
  events : List Event
  /-- The machine after the call. -/
  machine : Machine

namespace Machine

/-- The answer to a call that puts a new state into a machine. A rejected one leaves the
machine as it was. -/
def accept (m : Machine) : Except Fault Machine → Response
  | .ok m' => ⟨.updated (.ok ()), [], m'⟩
  | .error fault => ⟨.updated (.error fault), [], m⟩

/-- The answer of a machine to a call. -/
def answer (m : Machine) : Call → Response
  | .step => ⟨.stepped m.step.outcome, [], m.step.machine⟩
  | .stepTraced => ⟨.stepped m.step.outcome, m.step.events, m.step.machine⟩
  | .run steps => ⟨.ran (m.run steps).1, [], (m.run steps).2⟩
  | .runUntil boundary limit =>
    ⟨.ran (m.runUntil boundary limit).1, [], (m.runUntil boundary limit).2⟩
  | .load image => m.accept (m.load image)
  | .restore snapshot => m.accept (m.restore snapshot)
  | .reset => m.accept (.ok m.reset)

/-- The answers of a machine to a list of calls, one after the other. -/
def session (m : Machine) : List Call → List (Call × Response)
  | [] => []
  | call :: rest => (call, m.answer call) :: (m.answer call).machine.session rest

/-- The machine after a list of calls. -/
def after (m : Machine) : List Call → Machine
  | [] => m
  | call :: rest => (m.answer call).machine.after rest

end Machine

/-- The call restarted the machine: it was a reset, or a load or a restore that was
accepted. -/
def Call.Restarts (call : Call) (response : Response) : Prop :=
  match call with
  | .reset => True
  | .load _ | .restore _ => response.reply = .updated (.ok ())
  | .step | .stepTraced | .run _ | .runUntil _ _ => False

/-! ### Accepted and rejected states -/

namespace Machine

/-- An image that does not fit is rejected with both lengths. -/
theorem load_of_lt {m : Machine} {image : Array Word} (h : m.memory.capacity < image.size) :
    m.load image = .error (.imageTooLarge image.size m.memory.capacity) := by
  rw [load, Memory.load_of_lt h]

/-- An image that fits is accepted. -/
theorem exists_load_of_le {m : Machine} {image : Array Word}
    (h : image.size ≤ m.memory.capacity) : ∃ m', m.load image = .ok m' := by
  obtain ⟨memory, hmemory⟩ := Memory.exists_load_of_le h
  exact ⟨_, load_eq_ok_iff.2 ⟨memory, hmemory, rfl⟩⟩

/-- A snapshot whose memory does not fit is rejected with both capacities. -/
theorem restore_of_lt {m : Machine} {s : Snapshot} (h : m.memory.capacity < s.memory.capacity) :
    m.restore s = .error (.imageTooLarge s.memory.capacity m.memory.capacity) := by
  rw [restore, Memory.load_of_lt h]
  rfl

/-- A snapshot whose memory fits is accepted. -/
theorem exists_restore_of_le {m : Machine} {s : Snapshot}
    (h : s.memory.capacity ≤ m.memory.capacity) : ∃ m', m.restore s = .ok m' := by
  have hfits : s.memory.words.size ≤ m.memory.capacity := h
  obtain ⟨memory, hmemory⟩ := Memory.exists_load_of_le hfits
  exact ⟨_, restore_eq_ok_iff.2 ⟨memory, hmemory, rfl⟩⟩

/-- Building a machine with a program is loading the program into a new machine. -/
theorem answer_load_of_ofImage {config : Config} {image : Array Word} {m : Machine}
    (h : ofImage config image = .ok m) : ((new config).answer (.load image)).machine = m := by
  rw [ofImage] at h
  rw [answer, h, accept]

/-- An image that does not fit is rejected, and the machine is what it was. -/
theorem answer_load_of_lt {m : Machine} {image : Array Word}
    (h : m.memory.capacity < image.size) :
    m.answer (.load image) =
      ⟨.updated (.error (.imageTooLarge image.size m.memory.capacity)), [], m⟩ := by
  rw [answer, load_of_lt h]
  rfl

/-- A snapshot whose memory does not fit is rejected, and the machine is what it was. -/
theorem answer_restore_of_lt {m : Machine} {s : Snapshot}
    (h : m.memory.capacity < s.memory.capacity) :
    m.answer (.restore s) =
      ⟨.updated (.error (.imageTooLarge s.memory.capacity m.memory.capacity)), [], m⟩ := by
  rw [answer, restore_of_lt h]
  rfl

end Machine

/-- A load restarts a machine exactly if the image fits. -/
theorem Call.restarts_load_iff {m : Machine} {image : Array Word} :
    (Call.load image).Restarts (m.answer (.load image)) ↔ image.size ≤ m.memory.capacity := by
  rcases Nat.lt_or_ge m.memory.capacity image.size with hlt | hle
  · have hreject := Machine.load_of_lt hlt
    simp [Restarts, Machine.answer, Machine.accept, hreject, hlt]
  · obtain ⟨m', hm'⟩ := Machine.exists_load_of_le hle
    simp [Restarts, Machine.answer, Machine.accept, hm', hle]

/-- A restore restarts a machine exactly if the memory of the snapshot fits. -/
theorem Call.restarts_restore_iff {m : Machine} {s : Snapshot} :
    (Call.restore s).Restarts (m.answer (.restore s)) ↔
      s.memory.capacity ≤ m.memory.capacity := by
  rcases Nat.lt_or_ge m.memory.capacity s.memory.capacity with hlt | hle
  · have hreject := Machine.restore_of_lt hlt
    simp [Restarts, Machine.answer, Machine.accept, hreject, hlt]
  · obtain ⟨m', hm'⟩ := Machine.exists_restore_of_le hle
    simp [Restarts, Machine.answer, Machine.accept, hm', hle]

/-- A call that restarts a machine leaves it running. -/
theorem Call.status_of_restarts {m : Machine} {call : Call}
    (h : call.Restarts (m.answer call)) : (m.answer call).machine.status = .running := by
  cases call with
  | step | stepTraced | run _ | runUntil _ _ => exact h.elim
  | reset => rfl
  | load image =>
      obtain ⟨m', hm'⟩ := Machine.exists_load_of_le (restarts_load_iff.1 h)
      obtain ⟨_, -, heq⟩ := Machine.load_eq_ok_iff.1 hm'
      rw [Machine.answer, hm', heq, Machine.accept]
  | restore s =>
      obtain ⟨m', hm'⟩ := Machine.exists_restore_of_le (restarts_restore_iff.1 h)
      obtain ⟨_, -, heq⟩ := Machine.restore_eq_ok_iff.1 hm'
      rw [Machine.answer, hm', heq, Machine.accept]

end Smolisa
