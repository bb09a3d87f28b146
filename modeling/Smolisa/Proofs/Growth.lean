import Smolisa.Proofs.FaultConditions
import Smolisa.Proofs.Lockstep

/-!
# Growing Memory

A program that fits a machine fits a machine with more memory, and it does the same there. Let
one memory hold the words of another one, followed by zeros. An access below the capacity of the
smaller memory finds the same word in both, and a store there leaves the two as they were: the
words of the one, followed by zeros. An access behind that capacity makes the smaller machine
fail, and there the two may part; nowhere else does a capacity enter into a step. In particular
no step that the smaller machine retires can reach the zeros behind its words.

## Main results

* `Memory.growsTo_iff` — **growth seen word by word**: no word is different, if the words that
  a memory does not have are taken for zeros.
* `Machine.lockstep_grows` — a machine, and one with more memory, take the same steps up to
  accesses outside memory.
* `Machine.Grows.of_load` and `Machine.Grows.of_restore` — how such machines come about.
* `Machine.growing_memory_keeps_runs` — **growing memory never changes a program that fits.**
-/

namespace Smolisa

namespace Memory

/-- The second memory holds the words of the first one, followed by zeros. -/
def GrowsTo (a b : Memory) : Prop :=
  ∃ n, b.words = a.words ++ Array.replicate n 0

/-- Zeros behind the words of a memory cannot be told from there being no words. -/
theorem get_append_zeros (m : Memory) (n i : Nat) :
    get ⟨m.words ++ Array.replicate n 0⟩ i = m.get i := by
  rcases Nat.lt_or_ge i m.words.size with hlt | hle
  · simp [get, Array.getElem?_append, hlt]
  · by_cases hn : i - m.words.size < n
    · simp [get, Array.getElem?_append, Nat.not_lt.2 hle, hn]
    · simp [get, Array.getElem?_append, Nat.not_lt.2 hle, hn]

/-- **Growth seen word by word.** -/
theorem growsTo_iff {a b : Memory} :
    a.GrowsTo b ↔ a.capacity ≤ b.capacity ∧ ∀ i, b.get i = a.get i := by
  constructor
  · rintro ⟨n, hn⟩
    have hb : b = ⟨a.words ++ Array.replicate n 0⟩ := congrArg Memory.mk hn
    rw [hb]
    exact ⟨by simp [capacity], a.get_append_zeros n⟩
  · rintro ⟨hle, hget⟩
    have hb : b = ⟨a.words ++ Array.replicate (b.capacity - a.capacity) 0⟩ := by
      refine ext_get ?_ fun i _ => ?_
      · simp only [capacity, Array.size_append, Array.size_replicate] at hle ⊢
        omega
      · rw [get_append_zeros, hget]
    exact ⟨_, congrArg words hb⟩

section GrowsTo

variable {a b : Memory} (h : a.GrowsTo b)
include h

theorem GrowsTo.capacity_le : a.capacity ≤ b.capacity :=
  (growsTo_iff.1 h).1

theorem GrowsTo.get_eq (i : Nat) : b.get i = a.get i :=
  (growsTo_iff.1 h).2 i

/-- A store to the smaller memory, made in both, leaves one that grows to the other. -/
theorem GrowsTo.put {index : Nat} (hlt : index < a.capacity) (w : Word) :
    (a.put index w).GrowsTo (b.put index w) := by
  have hle := h.capacity_le
  refine growsTo_iff.2 ⟨by simpa using hle, fun i => ?_⟩
  rw [get_put, get_put, h.get_eq]
  by_cases hi : i = index
  · rw [if_pos ⟨hi, by omega⟩, if_pos ⟨hi, by omega⟩]
  · rw [if_neg fun hboth => hi hboth.1, if_neg fun hboth => hi hboth.1]

/-- If each of two memories is changed into one of the same capacity, and the one still grows to
the other, then both of them have changed or neither of them. -/
theorem GrowsTo.eq_iff {a' b' : Memory} (h' : a'.GrowsTo b') (ha : a'.capacity = a.capacity)
    (hb : b'.capacity = b.capacity) : a' = a ↔ b' = b := by
  constructor
  · rintro rfl
    exact ext_get hb fun i _ => by rw [h.get_eq, h'.get_eq]
  · rintro rfl
    exact ext_get ha fun i _ => by rw [← h.get_eq, ← h'.get_eq]

end GrowsTo

/-- An image that fits a memory fits one of a larger capacity, with more zeros behind it. -/
theorem growsTo_of_load {a b a' : Memory} {image : Array Word} (hle : a.capacity ≤ b.capacity)
    (h : a.load image = .ok a') : ∃ b', b.load image = .ok b' ∧ a'.GrowsTo b' := by
  rw [load] at h
  split at h
  · next hfits =>
      cases h
      have hzeros : b.capacity - image.size =
          (a.capacity - image.size) + (b.capacity - a.capacity) := by
        omega
      refine ⟨_, if_pos (hfits.trans hle), b.capacity - a.capacity, ?_⟩
      rw [Array.append_assoc, Array.replicate_append_replicate, hzeros]
  · cases h

end Memory

/-! ### The action of an instruction -/

/-- An action is read off the words in memory; how many there are does not matter. -/
theorem Opcode.action_of_growsTo {a b : Memory} (h : a.GrowsTo b) (op : Opcode) (word : Word)
    (regs : RegisterFile) : op.action word regs b = op.action word regs a := by
  cases op <;> simp only [action, h.get_eq]

/-- A store below the capacity of the smaller memory, made in both, leaves one that grows to
the other. -/
theorem Action.memory_growsTo {a b : Memory} (h : a.GrowsTo b) {action : Action}
    (hlt : ∀ w, action = .setMemory w → w.index < a.capacity) :
    (action.memory a).GrowsTo (action.memory b) := by
  cases action with
  | nothing | setRegister _ => exact h
  | setMemory w =>
      have hstored : stored b w = stored a w := by rw [stored, stored, h.get_eq]
      rw [memory, memory, hstored]
      exact h.put (hlt w rfl) _

namespace Machine

/-- The second machine is the first one, with zeros added to its memory. -/
structure Grows (a b : Machine) : Prop where
  profile : b.config.profile = a.config.profile
  registers : b.registers = a.registers
  memory : a.memory.GrowsTo b.memory
  control : b.control = a.control
  status : b.status = a.status
  stats : b.stats = a.stats

/-! ### A single step -/

section Grows

variable {a b : Machine} (h : a.Grows b)
include h

theorem Grows.ip_eq : b.ip = a.ip := by
  rw [ip, ip, h.registers]

theorem Grows.pending_eq : b.pending = a.pending := by
  rw [pending, pending, h.ip_eq, h.memory.get_eq]

theorem Grows.dataIndex_eq : b.dataIndex = a.dataIndex := by
  rw [dataIndex, dataIndex, h.registers, h.pending_eq]

theorem Grows.decodes_eq :
    b.pending.opcode? b.config.profile = a.pending.opcode? a.config.profile := by
  rw [h.pending_eq, h.profile]

theorem Grows.action_eq (op : Opcode) : b.action op = a.action op := by
  rw [action, action, h.registers, h.pending_eq, Opcode.action_of_growsTo h.memory]

/-- What a machine executes, one with more memory executes. -/
theorem Grows.executes {op : Opcode} (ha : a.Executes op) : b.Executes op where
  aligned := by rw [h.ip_eq]; exact ha.aligned
  fetch_lt := by rw [h.ip_eq]; exact ha.fetch_lt.trans_le h.memory.capacity_le
  decodes := by rw [h.decodes_eq]; exact ha.decodes
  data_lt := by
    intro haccess
    rw [h.dataIndex_eq]
    exact (ha.data_lt haccess).trans_le h.memory.capacity_le

/-- What a machine fails on, one with more memory fails on in the same way, unless it is an
access outside memory. -/
theorem Grows.faults {fault : Fault} {control : ControlUnit} (ha : a.Faults fault control) :
    b.Faults fault control ∨
      ∃ index capacity, fault = .outOfBoundsAddress index capacity := by
  cases ha with
  | misaligned odd =>
      rw [← h.ip_eq] at odd ⊢
      rw [← h.control]
      exact .inl (.misaligned odd)
  | decode aligned fetch_lt unknown =>
      have hfetch := fetch_lt.trans_le h.memory.capacity_le
      rw [← h.ip_eq] at aligned hfetch ⊢
      rw [← h.decodes_eq] at unknown
      rw [← h.pending_eq]
      exact .inl (.decode aligned hfetch unknown)
  | fetch _ _ | data _ _ _ _ _ => exact .inr ⟨_, _, rfl⟩

/-- An instruction that both machines retire leaves one that has more memory than the other, and
it has changed the one if it has changed the other. -/
theorem Grows.retirement {op : Opcode} (ha : a.Executes op) :
    (a.retirement op).Matches Grows (b.retirement op) := by
  have hregisters : (b.retire op).registers = (a.retire op).registers := by
    rw [retire, retire, h.action_eq, h.registers]
  have hmemory : (a.retire op).memory.GrowsTo (b.retire op).memory := by
    rw [retire, retire, h.action_eq]
    exact Action.memory_growsTo h.memory fun _ => ha.index_lt
  have hcontrol : (b.retire op).control = (a.retire op).control := by
    rw [retire, retire, latched, latched, h.pending_eq, h.registers]
  have hstats : (b.retire op).stats = (a.retire op).stats := by
    rw [retire, retire, h.stats]
  have hchanged : ((a.retire op).memory != a.memory) = ((b.retire op).memory != b.memory) := by
    have hsame := h.memory.eq_iff hmemory (Action.capacity_memory _ _)
      (Action.capacity_memory _ _)
    rw [Bool.eq_iff_iff, bne_iff_ne, bne_iff_ne, Ne, Ne, hsame]
  refine ⟨?_, ?_, h.profile, hregisters, hmemory, hcontrol, h.status, hstats⟩
  · rw [Machine.retirement, Machine.retirement, h.ip_eq, h.pending_eq]
  · rw [Machine.retirement, Machine.retirement, hregisters, h.registers, hchanged]

end Grows

/-- A step of a machine, and of one with more memory. -/
theorem lockstep_grows :
    Lockstep Grows fun fault => ∃ index capacity, fault = .outOfBoundsAddress index capacity := by
  intro a b h
  rcases a.step_cases with ⟨fault, hstop, hstep⟩ | ⟨hrun, fault, control, hfaults, hstep⟩ |
    ⟨hrun, op, hexec, hstep⟩
  · rw [hstep, step_of_stopped (h.status.trans hstop)]
    exact .inl ⟨rfl, rfl, h⟩
  · rcases h.faults hfaults with hfaults' | hout
    · rw [hstep, step_of_faults (h.status.trans hrun) hfaults']
      exact .inl ⟨rfl, rfl, h.profile, h.registers, h.memory, rfl, rfl, h.stats⟩
    · rw [hstep]
      exact .inr ⟨fault, hout, rfl⟩
  · rw [hstep, step_of_executes (h.status.trans hrun) (h.executes hexec)]
    exact .inl (h.retirement hexec)

/-! ### How such machines come about -/

/-- Loading an image that fits the smaller of two machines sets them up. -/
theorem Grows.of_load {a b a' : Machine} (hprofile : b.config.profile = a.config.profile)
    (hle : a.memory.capacity ≤ b.memory.capacity) {image : Array Word}
    (h : a.load image = .ok a') : ∃ b', b.load image = .ok b' ∧ a'.Grows b' := by
  obtain ⟨memory, hmemory, rfl⟩ := load_eq_ok_iff.1 h
  obtain ⟨memory', hmemory', hgrows⟩ := Memory.growsTo_of_load hle hmemory
  exact ⟨_, load_eq_ok_iff.2 ⟨memory', hmemory', rfl⟩, hprofile, rfl, hgrows, rfl, rfl, rfl⟩

/-- Restoring a snapshot of the smaller of two machines to the larger one sets them up, but for
what the smaller one has latched. -/
theorem Grows.of_restore {a b : Machine} (hprofile : b.config.profile = a.config.profile)
    (hle : a.memory.capacity ≤ b.memory.capacity) :
    ∃ b', b.restore a.snapshot = .ok b' ∧
      Grows { a with control := .empty, status := .running } b' := by
  have hload : b.memory.load a.memory.words =
      .ok ⟨a.memory.words ++ Array.replicate (b.memory.capacity - a.memory.words.size) 0⟩ :=
    if_pos hle
  exact ⟨_, restore_eq_ok_iff.2 ⟨_, hload, rfl⟩, hprofile, rfl, ⟨_, rfl⟩, rfl, rfl, rfl⟩

/-! ### Runs -/

/-- **Growing memory never changes a program that fits.** Let one machine be another one with
zeros added to its memory. A run that succeeds on the smaller machine succeeds on the larger one,
with the same report, and leaves the larger machine as the smaller one with zeros added. If the
run fails after `k` instructions, and not on an access outside memory, then the run of the larger
machine fails after the same `k` instructions with the same fault, and up to there and afterwards
it is the smaller machine with zeros added. So the two can part only where the smaller machine
fails on an access outside its memory. Such machines come about when the same image is loaded
into both, or when a snapshot of the smaller one is restored to the larger one, which starts with
nothing latched. -/
theorem growing_memory_keeps_runs {a b : Machine}
    (hprofile : b.config.profile = a.config.profile)
    (hle : a.memory.capacity ≤ b.memory.capacity) :
    (a.Grows b → ∀ n,
      (∀ done a', a.run n = (.ok done, a') → ∃ b', b.run n = (.ok done, b') ∧ a'.Grows b') ∧
      (∀ fault a', a.run n = (.error fault, a') →
        (∀ index capacity, fault ≠ .outOfBoundsAddress index capacity) →
        (∃ b', b.run n = (.error fault, b') ∧ a'.Grows b') ∧
        ∃ k < n, a.FailsAfter k fault ∧ b.FailsAfter k fault ∧
          ∀ i ≤ k, (a.steps i).Grows (b.steps i)) ∧
      ((b.run n).1 ≠ (a.run n).1 ∨ ¬ (a.run n).2.Grows (b.run n).2 →
        ∃ index capacity, (a.run n).1 = .error (.outOfBoundsAddress index capacity))) ∧
    (∀ image a', a.load image = .ok a' → ∃ b', b.load image = .ok b' ∧ a'.Grows b') ∧
    ∃ b', b.restore a.snapshot = .ok b' ∧
      Grows { a with control := .empty, status := .running } b' := by
  refine ⟨fun h n => ⟨fun done a' hrun => ?_, fun fault a' hrun hinside => ?_, fun hpart => ?_⟩,
    fun image a' => Grows.of_load hprofile hle, Grows.of_restore hprofile hle⟩
  · exact lockstep_grows.run_ok h hrun
  · have hparts : ¬ ∃ index capacity, fault = .outOfBoundsAddress index capacity := by
      rintro ⟨index, capacity, rfl⟩
      exact hinside index capacity rfl
    obtain ⟨k, hk, hfails, rfl⟩ := run_eq_error_iff.1 hrun
    obtain ⟨hfails', hrelated⟩ := lockstep_grows.failsAfter h hfails hparts
    refine ⟨⟨_, run_eq_error_iff.2 ⟨k, hk, hfails', rfl⟩, hrelated⟩, k, hk, hfails, hfails', ?_⟩
    intro i hi
    exact lockstep_grows.steps h fun j hj => hfails.retires j (hj.trans_le hi)
  · rcases lockstep_grows.runFrom h .steps n (.start .steps) with ⟨houtcome, hrelated⟩ |
      ⟨fault, ⟨index, capacity, rfl⟩, hfault⟩
    · rcases hpart with hne | hnot
      · exact absurd houtcome.symm hne
      · exact absurd hrelated hnot
    · exact ⟨index, capacity, hfault⟩

/-- A program that jumps to an odd address fails there in two words of memory and in five. -/
theorem growing_memory_keeps_runs_jump :
    let image : Array Word :=
      #[Word.encodeImmediate .li .g0 3, Word.encodeRegister .or .ip .g0 .g0]
    let a : Machine := { new ⟨2, .full⟩ with memory := ⟨image⟩ }
    let b : Machine := { new ⟨5, .full⟩ with memory := ⟨image ++ #[0, 0, 0]⟩ }
    (a.run 9).1 = .error (.misalignedFetch 3) ∧ (b.run 9).1 = .error (.misalignedFetch 3) ∧
      (a.run 9).2.Grows (b.run 9).2 := by
  intro image a b
  have hgrows : a.Grows b := ⟨rfl, rfl, ⟨3, rfl⟩, rfl, rfl, rfl⟩
  have hrun : (a.run 9).1 = .error (.misalignedFetch 3) := by decide
  obtain ⟨⟨b', hb, hrelated⟩, -⟩ :=
    ((growing_memory_keeps_runs (a := a) (b := b) rfl (by decide)).1 hgrows 9).2.1 _ _
      (Prod.ext hrun rfl) (fun _ _ h => by cases h)
  rw [hb]
  exact ⟨hrun, rfl, hrelated⟩

end Machine

end Smolisa
