import Smolisa.Proofs.FaultConditions
import Smolisa.Proofs.History

/-!
# Reachable Machines

A machine that somebody holds was built from a configuration, with a program in its memory or
without one, and has answered calls since then: steps and runs that went well or failed, and
new states that were accepted or rejected. `Machine.Reachable` says so. There is no limit to
the number of the calls, and nothing is assumed about the programs and snapshots in them.

A call changes a machine by steps or by a restart, so an invariant of the reachable machines
has to be shown for those two only. Two invariants are here: a machine keeps its configuration
and the capacity that goes with it, and a machine that has stopped would stop with the same
fault again. The first of them is all that a load or a reset needs in order to leave the same
machine behind whatever has happened before.

## Main results

* `Machine.answer_preserves` — **what steps and restarts preserve, every call preserves.**
* `Machine.Reachable.of_ofImage` — a machine that is built with a program counts as reachable.
* `Machine.Reachable.config_eq` and `Machine.Reachable.capacity_eq` — the configuration is
  kept, and memory has the configured capacity.
* `Machine.Reachable.fault?_eq` — the fault of a stopped machine is the one that its pending
  instruction raises.
* `Machine.load_and_reset_erase_history` — **a machine that is loaded or reset is as good as
  new, and one that rejects a new state is what it was.**
-/

namespace Smolisa

namespace Memory

/-- What a load does depends on the capacity of the memory, and not on its contents. -/
theorem load_congr {a b : Memory} (h : a.capacity = b.capacity) (image : Array Word) :
    a.load image = b.load image := by
  rw [load, load, h]

/-- All the words of a memory, loaded into one of the same capacity, make a copy of it. -/
theorem load_words {a b : Memory} (h : a.capacity = b.capacity) : a.load b.words = .ok b := by
  have hsize : b.words.size = a.capacity := h.symm
  rw [load, if_pos hsize.le, hsize, Nat.sub_self]
  simp

end Memory

namespace Machine

/-! ### Restarts -/

/-- A restart keeps the configuration and the capacity of memory. Everything else is replaced:
nothing is latched any more, and the machine runs. -/
theorem exists_of_restarts {m : Machine} {call : Call} (h : call.Restarts (m.answer call)) :
    ∃ registers memory stats, memory.capacity = m.memory.capacity ∧
      (m.answer call).machine = ⟨m.config, registers, memory, .empty, .running, stats⟩ := by
  cases call with
  | step | stepTraced | run _ | runUntil _ _ => exact h.elim
  | reset => exact ⟨_, _, _, rfl, rfl⟩
  | load image =>
      obtain ⟨m', hm'⟩ := exists_load_of_le (Call.restarts_load_iff.1 h)
      obtain ⟨memory, hmemory, heq⟩ := load_eq_ok_iff.1 hm'
      refine ⟨.zero, memory, .zero, Memory.capacity_load hmemory, ?_⟩
      rw [answer, hm', heq, accept]
  | restore s =>
      obtain ⟨m', hm'⟩ := exists_restore_of_le (Call.restarts_restore_iff.1 h)
      obtain ⟨memory, hmemory, heq⟩ := restore_eq_ok_iff.1 hm'
      refine ⟨s.registers, memory, s.stats, Memory.capacity_load hmemory, ?_⟩
      rw [answer, hm', heq, accept]

/-- **What steps and restarts preserve, every call preserves.** -/
theorem answer_preserves {P : Machine → Prop} (hstep : ∀ m, P m → P m.step.machine)
    (hrestart : ∀ m (call : Call), P m → call.Restarts (m.answer call) →
      P (m.answer call).machine)
    {m : Machine} (h : P m) (call : Call) : P (m.answer call).machine := by
  by_cases hcall : call.Restarts (m.answer call)
  · exact hrestart m call h hcall
  · exact answer_preserves_of_not_restarts hstep h hcall

/-! ### Reachable machines -/

/-- The machines that can come about from a configuration: the new one, and what is left of a
reachable one when it has answered a call. -/
inductive Reachable (config : Config) : Machine → Prop
  | new : Reachable config (new config)
  | answer {m : Machine} (h : Reachable config m) (call : Call) :
      Reachable config (m.answer call).machine

namespace Reachable

variable {config : Config} {m : Machine}

/-- A machine that is built with a program is reachable. -/
theorem of_ofImage {image : Array Word} (h : ofImage config image = .ok m) :
    m.Reachable config :=
  answer_load_of_ofImage h ▸ answer new (.load image)

/-- What reachable machines answer to, they stay reachable by. -/
theorem after (h : m.Reachable config) (calls : List Call) : (m.after calls).Reachable config := by
  induction calls generalizing m with
  | nil => exact h
  | cons call rest ih => exact ih (h.answer call)

/-- An invariant of the reachable machines is one of new machines, of steps and of restarts. -/
theorem invariant (P : Machine → Prop) (h : m.Reachable config) (hnew : P (Machine.new config))
    (hstep : ∀ m, P m → P m.step.machine)
    (hrestart : ∀ m (call : Call), P m → call.Restarts (m.answer call) →
      P (m.answer call).machine) : P m := by
  induction h with
  | new => exact hnew
  | answer _ call ih => exact answer_preserves hstep hrestart ih call

/-- A reachable machine has the configuration that it was built with, and the capacity. -/
theorem config_and_capacity (h : m.Reachable config) :
    m.config = config ∧ m.memory.capacity = config.memoryWords := by
  refine h.invariant (fun m => m.config = config ∧ m.memory.capacity = config.memoryWords)
    ⟨rfl, Memory.capacity_zero _⟩ ?_ ?_
  · rintro m ⟨hconfig, hcapacity⟩
    exact ⟨m.config_step.trans hconfig, m.capacity_step.trans hcapacity⟩
  · rintro m call ⟨hconfig, hcapacity⟩ hcall
    obtain ⟨_, _, _, hmemory, heq⟩ := exists_of_restarts hcall
    rw [heq]
    exact ⟨hconfig, hmemory.trans hcapacity⟩

theorem config_eq (h : m.Reachable config) : m.config = config :=
  h.config_and_capacity.1

theorem capacity_eq (h : m.Reachable config) : m.memory.capacity = config.memoryWords :=
  h.config_and_capacity.2

/-- **A latched fault is current.** It is the fault that the pending instruction of the
stopped machine raises. -/
theorem fault?_eq (h : m.Reachable config) {fault : Fault} (hstop : m.status = .stopped fault) :
    m.fault? = some fault := by
  refine h.invariant (fun m => ∀ fault, m.status = .stopped fault → m.fault? = some fault)
    (fun _ hnew => by cases hnew) ?_ ?_ fault hstop
  · intro m ih fault hfault
    rcases m.step_cases with ⟨_, -, hstep⟩ | ⟨-, _, _, hfaults, hstep⟩ | ⟨hrun, op, -, hstep⟩
    · rw [hstep] at hfault ⊢
      exact ih fault hfault
    · -- The conditions of faults look at nothing that stopping a machine changes.
      have hcurrent := fault?_of_faults hfaults
      rw [hstep] at hfault ⊢
      cases hfault
      exact hcurrent
    · rw [hstep] at hfault
      cases hrun.symm.trans hfault
  · intro m call _ hcall fault hfault
    cases (Call.status_of_restarts hcall).symm.trans hfault

end Reachable

/-! ### Loading, resetting and restoring -/

/-- A load leaves the same machine behind as building one with the image would. -/
theorem Reachable.load_eq {config : Config} {m : Machine} (h : m.Reachable config)
    (image : Array Word) : m.load image = ofImage config image := by
  have hmemory : m.memory.load image = (Machine.new config).memory.load image :=
    Memory.load_congr (h.capacity_eq.trans (Memory.capacity_zero _).symm) image
  rw [ofImage, load, load, hmemory]
  cases (Machine.new config).memory.load image with
  | error fault => rfl
  | ok memory => simp only [reset, h.config_eq, Machine.new]

/-- A reset leaves the same machine behind as building one with the words in memory would. -/
theorem Reachable.ofImage_words {config : Config} {m : Machine} (h : m.Reachable config) :
    ofImage config m.memory.words = .ok m.reset := by
  rw [← h.load_eq, load, Memory.load_words rfl]

/-- **A machine that is loaded or reset is as good as new, and one that rejects a new state is
what it was.** Whatever has happened to a machine since it was built, it has its configuration
still, and the capacity that goes with it. A load is accepted exactly if the image fits, and
then the machine is the one that would be built with the image; a reset leaves the one that
would be built with the words in memory. A load or a restore that is rejected reports both
lengths and changes nothing. -/
theorem load_and_reset_erase_history {config : Config} {m : Machine} (h : m.Reachable config) :
    m.config = config ∧ m.memory.capacity = config.memoryWords ∧
    (∀ image : Array Word,
      ((m.answer (.load image)).reply = .updated (.ok ()) ↔ image.size ≤ config.memoryWords) ∧
      (image.size ≤ config.memoryWords →
        ofImage config image = .ok (m.answer (.load image)).machine) ∧
      (config.memoryWords < image.size → m.answer (.load image) =
        ⟨.updated (.error (.imageTooLarge image.size config.memoryWords)), [], m⟩)) ∧
    ofImage config m.memory.words = .ok (m.answer .reset).machine ∧
    ∀ s : Snapshot,
      ((∃ fault, (m.answer (.restore s)).reply = .updated (.error fault)) ↔
        config.memoryWords < s.memory.capacity) ∧
      (config.memoryWords < s.memory.capacity → m.answer (.restore s) =
        ⟨.updated (.error (.imageTooLarge s.memory.capacity config.memoryWords)), [], m⟩) := by
  refine ⟨h.config_eq, h.capacity_eq, fun image => ⟨?_, ?_, ?_⟩, h.ofImage_words,
    fun s => ⟨⟨?_, ?_⟩, ?_⟩⟩ <;> rw [← h.capacity_eq]
  · exact Call.restarts_load_iff
  · intro hle
    obtain ⟨m', hm'⟩ := exists_load_of_le hle
    rw [← h.load_eq, answer, hm', accept]
  · exact answer_load_of_lt
  · rintro ⟨fault, hreply⟩
    refine Nat.not_le.1 fun hle => ?_
    have haccept : (m.answer (.restore s)).reply = .updated (.ok ()) :=
      Call.restarts_restore_iff.2 hle
    cases haccept.symm.trans hreply
  · intro hlt
    rw [answer_restore_of_lt hlt]
    exact ⟨_, rfl⟩
  · exact answer_restore_of_lt

/-- A machine of one word that has run past it keeps out a program of two words. It takes one of
a single word, and is as good as new then; so it is after a reset. -/
theorem load_and_reset_erase_history_stopped :
    let m : Machine := (new ⟨1, .full⟩).after [.load #[0], .run 2]
    m.status = .stopped (.outOfBoundsAddress 1 1) ∧
      m.answer (.load #[1, 2]) = ⟨.updated (.error (.imageTooLarge 2 1)), [], m⟩ ∧
      ofImage ⟨1, .full⟩ #[7] = .ok (m.answer (.load #[7])).machine ∧
      ofImage ⟨1, .full⟩ #[0] = .ok (m.answer .reset).machine := by
  intro m
  have hm : m.Reachable ⟨1, .full⟩ := Reachable.new.after [.load #[0], .run 2]
  obtain ⟨-, -, hload, hreset, -⟩ := load_and_reset_erase_history hm
  have hwords : m.memory.words = #[0] := by decide
  rw [hwords] at hreset
  exact ⟨by decide, (hload #[1, 2]).2.2 (by decide), (hload #[7]).2.1 (by decide), hreset⟩

end Machine

end Smolisa
