import Smolisa.Proofs.History

/-!
# Read-Only Memory

The datapath profile admits two opcodes, and neither of them has anything to do with memory. So a
machine with this profile never stores, whatever words it comes to fetch: one that encodes a store
or a load is stopped when it is decoded, before any of its data is looked at. What the machine has
in memory stays there until somebody puts something else into it from outside.

The statements are about every single step that is taken in answer to a list of calls, also about
those inside of a run that nobody observes. `Machine.stepped` lists the machines that take these
steps, each as it is when its step begins.

## Main results

* `Machine.machine_answer_of_not_restarts` — the steps in answer to a call are all that it does.
* `Machine.forall_mem_stepped` — **what steps and resets preserve holds at every step.**
* `Machine.exists_of_mem_events` — an observer sees nothing but the events of those steps.
* `Machine.memory_step_of_datapath` — a step under the datapath profile keeps memory.
* `Machine.datapath_memory_is_read_only` — **under the datapath profile memory is read-only.**
-/

namespace Smolisa

/-! ### The steps in answer to calls -/

/-- The machines that take the steps of a run, in order. -/
def Machine.runStepped (boundary : Boundary) : (limit : Nat) → Machine → List Machine
  | 0, _ => []
  | limit + 1, m =>
    m ::
      match m.step.outcome with
      | .error _ => []
      | .ok _ =>
        if boundary = .selfLoop ∧ m.step.changed = false then
          []
        else
          runStepped boundary limit m.step.machine

/-- The machines that take the steps in answer to a call, in order. -/
def Call.stepped (m : Machine) : Call → List Machine
  | .step | .stepTraced => [m]
  | .run steps => m.runStepped .steps steps
  | .runUntil boundary limit => m.runStepped boundary limit
  | .load _ | .restore _ | .reset => []

namespace Machine

/-- The machines that take the steps in answer to a list of calls, in order. -/
def stepped (m : Machine) : List Call → List Machine
  | [] => []
  | call :: rest => call.stepped m ++ (m.answer call).machine.stepped rest

/-- A run leaves behind what the last of its steps does, or the machine as it is if there is no
step. -/
theorem snd_runFrom (boundary : Boundary) (limit : Nat) (soFar : RunOutcome) (m : Machine) :
    (runFrom boundary limit soFar m).2 =
      ((m.runStepped boundary limit).getLast?.map (·.step.machine)).getD m := by
  induction limit generalizing soFar m with
  | zero => rfl
  | succ limit ih =>
      rw [runFrom_succ, runStepped]
      cases hout : m.step.outcome with
      | error fault => rfl
      | ok retirement =>
          dsimp only
          by_cases hends : boundary = .selfLoop ∧ m.step.changed = false
          · rw [if_pos hends, if_pos hends]
            rfl
          · rw [if_neg hends, if_neg hends, ih, List.getLast?_cons, Option.map_some,
              Option.getD_some, Option.getD_map]

/-- **The steps in answer to a call are all that it does**, if it does not restart the machine. It
leaves behind what the last of them does. -/
theorem machine_answer_of_not_restarts {m : Machine} {call : Call}
    (h : ¬ call.Restarts (m.answer call)) :
    (m.answer call).machine = ((call.stepped m).getLast?.map (·.step.machine)).getD m := by
  cases call with
  | step | stepTraced => rfl
  | run steps => exact snd_runFrom _ _ _ _
  | runUntil boundary limit => exact snd_runFrom _ _ _ _
  | load image =>
      rw [Call.restarts_load_iff, Nat.not_le] at h
      rw [answer_load_of_lt h]
      rfl
  | restore s =>
      rw [Call.restarts_restore_iff, Nat.not_le] at h
      rw [answer_restore_of_lt h]
      rfl
  | reset => exact absurd trivial h

section Invariant

variable {P : Machine → Prop} (hstep : ∀ m, P m → P m.step.machine)
include hstep

/-- What steps preserve holds at every step of a run. -/
theorem forall_mem_runStepped {m : Machine} (h : P m) (boundary : Boundary) (limit : Nat) :
    ∀ s ∈ m.runStepped boundary limit, P s := by
  induction limit generalizing m with
  | zero => exact fun _ hs => absurd hs List.not_mem_nil
  | succ limit ih =>
      have hnext := ih (hstep m h)
      intro s hs
      rw [runStepped] at hs
      rcases List.mem_cons.1 hs with rfl | hs
      · exact h
      · split at hs
        · exact absurd hs List.not_mem_nil
        · split at hs
          · exact absurd hs List.not_mem_nil
          · exact hnext s hs

/-- What steps preserve holds at every step in answer to a call. -/
theorem forall_mem_call_stepped {m : Machine} (h : P m) (call : Call) :
    ∀ s ∈ call.stepped m, P s := by
  cases call with
  | step | stepTraced =>
      intro s hs
      rw [List.mem_singleton.1 hs]
      exact h
  | run steps => exact forall_mem_runStepped hstep h _ _
  | runUntil boundary limit => exact forall_mem_runStepped hstep h _ _
  | load _ | restore _ | reset => exact fun _ hs => absurd hs List.not_mem_nil

/-- **What steps and resets preserve holds at every step** in answer to a list of calls, and after
it, if no other call restarts the machine. -/
theorem forall_mem_stepped (hreset : ∀ m, P m → P m.reset) {m : Machine} (h : P m)
    {calls : List Call} (hcalls : ∀ x ∈ m.session calls, x.1.Restarts x.2 → x.1 = .reset) :
    P (m.after calls) ∧ ∀ s ∈ m.stepped calls, P s := by
  induction calls generalizing m with
  | nil => exact ⟨h, fun _ hs => absurd hs List.not_mem_nil⟩
  | cons call rest ih =>
      have hfirst := forall_mem_call_stepped hstep h call
      have hanswer : P (m.answer call).machine := by
        by_cases hcall : call.Restarts (m.answer call)
        · obtain rfl : call = .reset := hcalls _ List.mem_cons_self hcall
          exact hreset m h
        · -- The call leaves behind what the last of its steps does.
          rw [machine_answer_of_not_restarts hcall]
          cases hlast : (call.stepped m).getLast? with
          | none => exact h
          | some s => exact hstep s (hfirst s (List.mem_of_getLast? hlast))
      obtain ⟨hafter, hrest⟩ := ih hanswer fun x hx => hcalls x (List.mem_cons_of_mem _ hx)
      refine ⟨hafter, fun s hs => ?_⟩
      rcases List.mem_append.1 hs with hs | hs
      · exact hfirst s hs
      · exact hrest s hs

end Invariant

/-- An observer of a list of calls sees nothing but the events of the steps in answer to it. -/
theorem exists_of_mem_events {m : Machine} {calls : List Call} {x : Call × Response}
    (hx : x ∈ m.session calls) {e : Event} (he : e ∈ x.2.events) :
    ∃ s ∈ m.stepped calls, e ∈ s.step.events := by
  induction calls generalizing m with
  | nil => exact absurd hx List.not_mem_nil
  | cons call rest ih =>
      rcases List.mem_cons.1 hx with rfl | hx
      · cases call with
        | stepTraced => exact ⟨m, List.mem_cons_self, he⟩
        | step | run _ | runUntil _ _ | reset => exact absurd he List.not_mem_nil
        | load image =>
            simp only [answer] at he
            cases hload : m.load image <;> simp [hload, accept] at he
        | restore s =>
            simp only [answer] at he
            cases hrestore : m.restore s <;> simp [hrestore, accept] at he
      · obtain ⟨s, hs, hevent⟩ := ih hx
        exact ⟨s, List.mem_append_right _ hs, hevent⟩

/-! ### A single step -/

/-- Under the datapath profile, no instruction that decodes accesses memory. -/
theorem accessesMemory_of_decodes {m : Machine} {op : Opcode}
    (datapath : m.config.profile = .datapath)
    (decodes : m.pending.opcode? m.config.profile = some op) : op.accessesMemory = false := by
  obtain ⟨-, hadmits⟩ := Opcode.decode?_eq_some_iff.1 decodes
  rw [datapath] at hadmits
  exact Opcode.accessesMemory_of_datapath hadmits

/-- Under the datapath profile, what is executed leaves memory alone. -/
theorem Executes.memory_of_datapath {m : Machine} {op : Opcode} (h : m.Executes op)
    (datapath : m.config.profile = .datapath) :
    (m.retire op).memory = m.memory ∧ (m.action op).store m.memory = none := by
  have hop := accessesMemory_of_decodes datapath h.decodes
  rw [retire]
  cases haction : m.action op with
  | nothing | setRegister _ => exact ⟨rfl, rfl⟩
  | setMemory w => cases hop.symm.trans (Opcode.action_eq_setMemory haction).1

/-- **A step under the datapath profile keeps memory.** -/
theorem memory_step_of_datapath {m : Machine} (datapath : m.config.profile = .datapath) :
    m.step.machine.memory = m.memory := by
  rcases m.step_cases with ⟨_, -, hstep⟩ | ⟨-, _, _, -, hstep⟩ | ⟨-, op, hexec, hstep⟩
  · rw [hstep]
  · rw [hstep]
    rfl
  · rw [hstep]
    exact (hexec.memory_of_datapath datapath).1

/-- Under the datapath profile no step reports a memory write. -/
theorem memoryWritten_not_mem_of_datapath {m : Machine}
    (datapath : m.config.profile = .datapath) (w : MemoryWrite) :
    .memoryWritten w ∉ m.step.events := by
  rcases m.step_cases with ⟨_, -, hstep⟩ | ⟨-, _, _, -, hstep⟩ | ⟨-, op, hexec, hstep⟩
  · rw [hstep]
    exact List.not_mem_nil
  · rw [hstep]
    simp [stop]
  · rw [hstep]
    simp [retirement, report, (hexec.memory_of_datapath datapath).2]

/-- Under the datapath profile an address outside memory is that of an instruction. -/
theorem outOfBounds_of_datapath {m : Machine} (datapath : m.config.profile = .datapath)
    {index capacity : Nat}
    (h : .faultRaised (.outOfBoundsAddress index capacity) ∈ m.step.events) :
    index = m.ip.toNat / 2 ∧ capacity = m.memory.capacity := by
  rcases m.step_cases with ⟨_, -, hstep⟩ | ⟨-, fault, _, hfaults, hstep⟩ | ⟨-, op, -, hstep⟩
  · rw [hstep] at h
    exact absurd h List.not_mem_nil
  · rw [hstep] at h
    cases List.mem_singleton.1 h
    cases hfaults with
    | fetch _ _ => exact ⟨Memory.wordIndex_eq _, rfl⟩
    | data _ _ decodes accesses _ =>
        cases accesses.symm.trans (accessesMemory_of_decodes datapath decodes)
  · rw [hstep] at h
    simp [retirement, report] at h

/-! ### Any number of calls -/

/-- The machine has the datapath profile and holds a given memory. -/
structure Holds (memory : Memory) (m : Machine) : Prop where
  profile : m.config.profile = .datapath
  memory_eq : m.memory = memory

/-- A step changes neither the profile nor, under the datapath profile, the memory. -/
theorem Holds.step {memory : Memory} {m : Machine} (h : m.Holds memory) :
    m.step.machine.Holds memory where
  profile := (congrArg Config.profile m.config_step).trans h.profile
  memory_eq := (memory_step_of_datapath h.profile).trans h.memory_eq

/-- **Under the datapath profile memory is read-only.** Let a machine with this profile, in any
state, answer any calls of which none puts a new state into it, apart from resets. Then its memory
is the same afterwards, and at every step on the way; no step reports a memory write, and no
observer sees one; and an address that a step finds to lie outside memory is that of its
instruction. So the only calls that change memory are the loads and the restores that are
accepted. -/
theorem datapath_memory_is_read_only {m : Machine} (datapath : m.config.profile = .datapath) :
    (∀ calls, (∀ x ∈ m.session calls, x.1.Restarts x.2 → x.1 = .reset) →
      (m.after calls).memory = m.memory ∧
      (∀ x ∈ m.session calls, ∀ w, .memoryWritten w ∉ x.2.events) ∧
      ∀ s ∈ m.stepped calls, s.memory = m.memory ∧
        (∀ w, .memoryWritten w ∉ s.step.events) ∧
        ∀ index capacity, .faultRaised (.outOfBoundsAddress index capacity) ∈ s.step.events →
          index = s.ip.toNat / 2 ∧ capacity = m.memory.capacity) ∧
    ∀ call : Call, (m.answer call).machine.memory ≠ m.memory →
      call.Restarts (m.answer call) ∧ call ≠ .reset := by
  have hm : m.Holds m.memory := ⟨datapath, rfl⟩
  have hreset (s : Machine) (hs : s.Holds m.memory) : s.reset.Holds m.memory :=
    ⟨hs.profile, hs.memory_eq⟩
  refine ⟨fun calls hcalls => ?_, fun call hchanged => ?_⟩
  · obtain ⟨hafter, hstepped⟩ := forall_mem_stepped (fun _ => Holds.step) hreset hm hcalls
    refine ⟨hafter.memory_eq, fun x hx w hw => ?_, fun s hs => ⟨(hstepped s hs).memory_eq,
      memoryWritten_not_mem_of_datapath (hstepped s hs).profile, fun index capacity h => ?_⟩⟩
    · obtain ⟨s, hs, hevent⟩ := exists_of_mem_events hx hw
      exact memoryWritten_not_mem_of_datapath (hstepped s hs).profile w hevent
    · rw [← (hstepped s hs).memory_eq]
      exact outOfBounds_of_datapath (hstepped s hs).profile h
  · refine ⟨?_, ?_⟩
    · by_contra hcall
      exact hchanged (answer_preserves_of_not_restarts (fun _ => Holds.step) hm hcall).memory_eq
    · rintro rfl
      exact hchanged rfl

/-- A jump out of memory. A program that does not fit and a reset come after it, and leave the
words of the first program in place. -/
theorem datapath_memory_is_read_only_jump :
    let m : Machine := { new ⟨2, .datapath⟩ with
      memory := ⟨#[Word.encodeImmediate .li .g0 8, Word.encodeRegister .or .ip .g0 .g0]⟩ }
    let calls : List Call := [.stepTraced, .run 2, .load #[1, 2, 3], .reset, .run 1]
    (m.after calls).memory = m.memory ∧
      ∃ s ∈ m.stepped calls, .faultRaised (.outOfBoundsAddress 4 2) ∈ s.step.events ∧
        4 = s.ip.toNat / 2 := by
  intro m calls
  have hcalls : ∀ x ∈ m.session calls, x.1.Restarts x.2 → x.1 = .reset := by
    intro x hx hcall
    simp only [calls, session, List.mem_cons, List.not_mem_nil, or_false] at hx
    rcases hx with rfl | rfl | rfl | rfl | rfl
    · exact hcall.elim
    · exact hcall.elim
    · exact absurd (Call.restarts_load_iff.1 hcall) (by decide)
    · rfl
    · exact hcall.elim
  obtain ⟨hmemory, -, hstepped⟩ := (datapath_memory_is_read_only rfl).1 calls hcalls
  have hs : m.step.machine.step.machine ∈ m.stepped calls := by decide
  have hfault : .faultRaised (.outOfBoundsAddress 4 2) ∈
      m.step.machine.step.machine.step.events := by decide
  exact ⟨hmemory, _, hs, hfault, ((hstepped _ hs).2.2 4 2 hfault).1⟩

end Machine

end Smolisa
