import Smolisa.Proofs.Step

/-!
# The Conditions of Faults

Several things can be wrong with a pending instruction at once: the instruction pointer may be
odd and point outside memory, the word there may have an opcode that the profile does not
admit, and it may name an address outside memory. A step raises exactly one fault for all of
them. `Machine.fault?` decides which one, by trying the conditions in order on the registers,
the words and the profile of the machine. It looks at nothing else, and neither at how a step
goes about its work.

An instruction that only computes has no condition of its own. Its don't-care fields name
registers and addresses too, but no fault comes of them.

## Main results

* `Machine.fault?_of_faults` and `Machine.fault?_of_executes` — the conditions sort the ways
  of a step.
* `Machine.outcome_eq_error_iff` — **the fault of a step is the first condition that
  holds**, and without one the step retires. Under the full profile no opcode is unknown, and
  a memory of `2 ^ 15` words cannot be left.
-/

namespace Smolisa

namespace Word

/-- The opcode of a word, told by its remainder: the full profile admits them all, the
datapath profile two. -/
theorem opcode?_eq_none_iff {profile : Profile} {w : Word} :
    w.opcode? profile = none ↔
      profile = .datapath ∧ w.toNat % 16 ≠ 0x0 ∧ w.toNat % 16 ≠ 0xB := by
  have table : ∀ i : Fin 16, ∀ p ∈ [Profile.full, Profile.datapath],
      (Opcode.decode? p (UInt8.ofNat i) = none ↔ p = .datapath ∧ i.val ≠ 0x0 ∧ i.val ≠ 0xB) := by
    decide
  have hnibble : UInt8.ofNat (w.toNat % 16) = w.opcodeNibble := by
    rw [← toNat_opcodeNibble, UInt8.ofNat_toNat]
  rw [opcode?, ← hnibble]
  exact table ⟨w.toNat % 16, Nat.mod_lt _ (by decide)⟩ profile (by cases profile <;> decide)

/-- The opcodes that access memory have four patterns in a row. -/
theorem accessesMemory_iff {profile : Profile} {w : Word} {op : Opcode}
    (h : w.opcode? profile = some op) :
    op.accessesMemory = true ↔ w.toNat % 16 ∈ [0x2, 0x3, 0x4, 0x5] := by
  rw [← toNat_opcodeNibble, (Opcode.decode?_eq_some_iff.1 h).1]
  cases op <;> decide

end Word

/-- The registers with the instruction pointer moved on, one by one. -/
theorem RegisterFile.get_advance (regs : RegisterFile) (r : Register) :
    regs.advance.get r = if r = .ip then regs.get .ip + 2 else regs.get r := by
  rw [advance, get_write, LaneMask.merge_both]
  rfl

namespace Machine

/-- A word that can be fetched is read at half the instruction pointer. -/
theorem read_pending {m : Machine} (fetch_lt : Memory.wordIndex m.ip < m.memory.capacity) :
    m.memory.read (m.ip.toNat / 2) = .ok m.pending := by
  rw [← Memory.wordIndex_eq, Memory.read_of_lt fetch_lt, pending]

/-- The fault that a running machine raises at its next step, if it raises one: the first of
the conditions that holds. -/
def fault? (m : Machine) : Option Fault :=
  let ip := m.registers.get .ip
  let capacity := m.memory.words.size
  let word := m.memory.words.getD (ip.toNat / 2) 0
  let opcode := word.toNat % 16
  let address := if word.r1 = .ip then ip + 2 else m.registers.get word.r1
  if ip.toNat % 2 = 1 then
    some (.misalignedFetch ip)
  else if capacity ≤ ip.toNat / 2 then
    some (.outOfBoundsAddress (ip.toNat / 2) capacity)
  else if m.config.profile = .datapath ∧ opcode ≠ 0x0 ∧ opcode ≠ 0xB then
    some (.unknownOpcode (UInt8.ofNat opcode) ip)
  else if opcode ∈ [0x2, 0x3, 0x4, 0x5] ∧ capacity ≤ address.toNat / 2 then
    some (.outOfBoundsAddress (address.toNat / 2) capacity)
  else
    none

/-- The conditions, in the terms in which a step is described. -/
theorem fault?_eq (m : Machine) :
    m.fault? =
      if m.ip.toNat % 2 = 1 then
        some (.misalignedFetch m.ip)
      else if m.memory.capacity ≤ Memory.wordIndex m.ip then
        some (.outOfBoundsAddress (Memory.wordIndex m.ip) m.memory.capacity)
      else if m.pending.opcode? m.config.profile = none then
        some (.unknownOpcode m.pending.opcodeNibble m.ip)
      else if m.pending.toNat % 16 ∈ [0x2, 0x3, 0x4, 0x5] ∧
          m.memory.capacity ≤ m.dataIndex then
        some (.outOfBoundsAddress m.dataIndex m.memory.capacity)
      else
        none := by
  have hnibble : UInt8.ofNat (m.pending.toNat % 16) = m.pending.opcodeNibble := by
    rw [← Word.toNat_opcodeNibble, UInt8.ofNat_toNat]
  simp only [Word.opcode?_eq_none_iff, ← hnibble, dataIndex, RegisterFile.get_advance,
    Memory.wordIndex_eq]
  have hpending : m.pending = m.memory.words.getD ((m.registers.get .ip).toNat / 2) 0 := by
    rw [pending, Memory.wordIndex_eq]
    rfl
  simp only [hpending]
  rfl

/-- An instruction that executes meets none of the conditions. -/
theorem fault?_of_executes {m : Machine} {op : Opcode} (h : m.Executes op) :
    m.fault? = none := by
  rw [fault?_eq, if_neg, if_neg, if_neg, if_neg]
  · rintro ⟨hmem, hle⟩
    exact Nat.not_lt.2 hle (h.data_lt ((Word.accessesMemory_iff h.decodes).2 hmem))
  · rw [h.decodes]
    exact Option.some_ne_none op
  · exact Nat.not_le.2 h.fetch_lt
  · rw [h.aligned]
    decide

/-- An instruction that fails meets the condition of its fault, and none in front of it. -/
theorem fault?_of_faults {m : Machine} {fault : Fault} {control : ControlUnit}
    (h : m.Faults fault control) : m.fault? = some fault := by
  have even {n : Nat} (hn : n % 2 = 0) : ¬ n % 2 = 1 := by omega
  rw [fault?_eq]
  cases h with
  | misaligned odd => rw [if_pos odd]
  | fetch aligned le_fetch => rw [if_neg (even aligned), if_pos le_fetch]
  | decode aligned fetch_lt unknown =>
      rw [if_neg (even aligned), if_neg (Nat.not_le.2 fetch_lt), if_pos unknown]
  | data aligned fetch_lt decodes accesses le_data =>
      rw [if_neg (even aligned), if_neg (Nat.not_le.2 fetch_lt), if_neg, if_pos]
      · exact ⟨(Word.accessesMemory_iff decodes).1 accesses, le_data⟩
      · rw [decodes]
        exact Option.some_ne_none _

/-- A running machine raises the fault whose condition it meets. -/
theorem outcome_of_fault? {m : Machine} {fault : Fault} (running : m.status = .running)
    (h : m.fault? = some fault) : m.step.outcome = .error fault := by
  rcases m.executes_or_faults with ⟨op, hexec⟩ | ⟨fault', control, hfaults⟩
  · rw [fault?_of_executes hexec] at h
    cases h
  · rw [fault?_of_faults hfaults] at h
    cases h
    rw [step_of_faults running hfaults, stop]

/-- Under the full profile no opcode is unknown. -/
theorem Faults.profile_of_unknownOpcode {m : Machine} {opcode : UInt8} {ip : Word}
    {control : ControlUnit} (h : m.Faults (.unknownOpcode opcode ip) control) :
    m.config.profile = .datapath := by
  cases h with
  | decode _ _ unknown => exact (Word.opcode?_eq_none_iff.1 unknown).1

/-- An address outside memory is one of the `2 ^ 15` that words can name. -/
theorem Faults.capacity_le_of_outOfBounds {m : Machine} {index capacity : Nat}
    {control : ControlUnit} (h : m.Faults (.outOfBoundsAddress index capacity) control) :
    m.memory.capacity ≤ index ∧ index < 2 ^ 15 := by
  have wordIndex_lt (addr : Word) : Memory.wordIndex addr < 2 ^ 15 := by
    have := addr.toNat_lt
    rw [Memory.wordIndex_eq]
    omega
  cases h with
  | fetch _ le_fetch => exact ⟨le_fetch, wordIndex_lt _⟩
  | data _ _ _ _ le_data => exact ⟨le_data, wordIndex_lt _⟩

/-- **The fault of a step is the first condition that holds.** Without one the step of a
running machine retires. No opcode is unknown to the full profile, and no address lies outside
a memory of `2 ^ 15` words. -/
theorem outcome_eq_error_iff {m : Machine} (running : m.status = .running) :
    (∀ fault, m.step.outcome = .error fault ↔ m.fault? = some fault) ∧
    ((∃ retirement, m.step.outcome = .ok retirement) ↔ m.fault? = none) ∧
    (m.config.profile = .full →
      ∀ opcode ip, m.step.outcome ≠ .error (.unknownOpcode opcode ip)) ∧
    (2 ^ 15 ≤ m.memory.capacity →
      ∀ index capacity, m.step.outcome ≠ .error (.outOfBoundsAddress index capacity)) := by
  rcases m.step_cases with ⟨fault, hstop, -⟩ | ⟨-, fault, control, h, hstep⟩ |
    ⟨-, op, h, hstep⟩
  · rw [hstop] at running
    cases running
  · have houtcome : m.step.outcome = .error fault := by rw [hstep, stop]
    rw [houtcome, fault?_of_faults h]
    refine ⟨fun f => by simp, by simp, fun hfull opcode ip heq => ?_,
      fun hcap index capacity heq => ?_⟩
    · cases heq
      rw [h.profile_of_unknownOpcode] at hfull
      cases hfull
    · cases heq
      obtain ⟨hle, hlt⟩ := h.capacity_le_of_outOfBounds
      omega
  · have houtcome : m.step.outcome = .ok ⟨m.ip, m.pending, op.cycles⟩ := by
      rw [hstep, retirement]
    rw [houtcome, fault?_of_executes h]
    simp

/-- A store behind the only word of memory fails. Its address is the instruction pointer,
taken after the advance. -/
theorem outcome_eq_error_storing :
    ({ new ⟨1, .full⟩ with
        memory := ⟨#[Word.encodeRegister .sw .ip .g0 .g0]⟩ } : Machine).step.outcome =
      .error (.outOfBoundsAddress 1 1) :=
  ((outcome_eq_error_iff rfl).1 _).2 (by decide)

end Machine

end Smolisa
