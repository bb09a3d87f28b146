import Smolisa.Listing.Row
import Smolisa.Proofs.FaultConditions

/-!
# The Listing as a Preview

A listing that starts at the instruction pointer shows in its first row what the machine is about
to execute. The two come about on different ways. A window of a listing rounds its start down to an
even address, counts on from there in numbers that do not wrap, and stops at the end of memory or
of the address space. A step fetches through the datapath and decodes in the control unit. Still
the row and the step cannot disagree: not on whether there is a word to show, not on what the word
is, and not on whether it is an instruction and which.

## Main results

* `Listing.head?_window` — the first row of a window shows the word in which its start lies, if
  memory has one.
* `Machine.step_of_fetched` — the ways of a step that has a word to fetch.
* `Machine.listing_shows_next_instruction` — **the disassembler and the executor agree on the next
  instruction.**
-/

namespace Smolisa

/-- Without its lowest bit, an address is rounded down to an even one. -/
theorem Word.toNat_and_even (w : Word) : (w &&& 0xFFFE).toNat = 2 * (w.toNat / 2) := by
  have hw := w.toNat_lt
  have hhalf : (w.toNat &&& 65534) / 2 = w.toNat / 2 := by
    rw [Nat.and_div_two]
    exact (Nat.and_two_pow_sub_one_eq_mod _ 15).trans (Nat.mod_eq_of_lt (by omega))
  have hlow : (w.toNat &&& 65534) % 2 = 0 := by
    simpa using @Nat.and_mod_two_pow w.toNat 65534 1
  rw [UInt16.toNat_and]
  change w.toNat &&& 65534 = _
  omega

namespace Listing

variable {start : Word} {count : Nat} {memory : Memory}

/-- A window starts at the even address of the word in which its start lies. -/
theorem window_eq_rows (start : Word) (count : Nat) (memory : Memory) (profile : Profile) :
    window start count memory profile =
      rows memory profile count (2 * Memory.wordIndex start) := by
  rw [window, Word.toNat_and_even, Memory.wordIndex_eq]

/-- A window that shows anything at all is empty exactly if its start lies outside memory. -/
theorem window_eq_nil_iff (hcount : 0 < count) (profile : Profile) :
    window start count memory profile = [] ↔ memory.capacity ≤ Memory.wordIndex start := by
  have hstart := start.toNat_lt
  rw [window_eq_rows, rows_eq_nil_iff, Memory.wordIndex_eq]
  omega

/-- The first row of a window shows the word in which its start lies. -/
theorem head?_window (hcount : 0 < count) (hlt : Memory.wordIndex start < memory.capacity)
    (profile : Profile) :
    (window start count memory profile).head? =
      some (Row.ofWord (start &&& 0xFFFE) (memory.get (Memory.wordIndex start)) profile) := by
  obtain ⟨count, rfl⟩ := Nat.exists_eq_add_one.2 hcount
  have haddr : (start &&& 0xFFFE).toNat < 65536 := (start &&& 0xFFFE).toNat_lt
  have hindex : (start &&& 0xFFFE).toNat / 2 = Memory.wordIndex start := by
    rw [Word.toNat_and_even, Memory.wordIndex_eq]
    omega
  rw [window, rows, if_pos haddr, hindex, Memory.read_of_lt hlt, UInt16.ofNat_toNat]
  rfl

end Listing

namespace Machine

variable {m : Machine}

/-- The address of the instruction pointer is not rounded, if it is even. -/
theorem ip_and_even (aligned : m.ip.toNat % 2 = 0) : m.ip &&& 0xFFFE = m.ip := by
  apply UInt16.toNat_inj.1
  rw [Word.toNat_and_even]
  omega

/-- The first row of a window that starts at an even instruction pointer, if it has one, shows the
pending instruction. -/
theorem of_head?_window_ip (aligned : m.ip.toNat % 2 = 0) {count : Nat} (hcount : 0 < count)
    {row : Listing.Row}
    (h : (Listing.window m.ip count m.memory m.config.profile).head? = some row) :
    Memory.wordIndex m.ip < m.memory.capacity ∧
      row = Listing.Row.ofWord m.ip m.pending m.config.profile := by
  have fetch_lt : Memory.wordIndex m.ip < m.memory.capacity := by
    by_contra hle
    rw [(Listing.window_eq_nil_iff hcount _).2 (Nat.not_lt.1 hle)] at h
    cases h
  rw [Listing.head?_window hcount fetch_lt, ip_and_even aligned] at h
  exact ⟨fetch_lt, (Option.some.inj h).symm⟩

/-- **The ways of a step that has a word to fetch.** The word is no instruction, or it is one
whose data lie outside memory, or else it retires. -/
theorem step_of_fetched (running : m.status = .running) (aligned : m.ip.toNat % 2 = 0)
    (fetch_lt : Memory.wordIndex m.ip < m.memory.capacity) :
    (m.pending.opcode? m.config.profile = none ∧
      m.step.outcome = .error (.unknownOpcode m.pending.opcodeNibble m.ip)) ∨
    ∃ op, m.pending.opcode? m.config.profile = some op ∧
      ((m.memory.capacity ≤ m.dataIndex ∧
          m.step.outcome = .error (.outOfBoundsAddress m.dataIndex m.memory.capacity)) ∨
        m.step = m.retirement op) := by
  rcases m.executes_or_faults with ⟨op, hexec⟩ | ⟨fault, control, hfaults⟩
  · exact .inr ⟨op, hexec.decodes, .inr (step_of_executes running hexec)⟩
  · have houtcome : m.step.outcome = .error fault := by
      rw [step_of_faults running hfaults, stop]
    cases hfaults with
    | misaligned odd => omega
    | fetch _ le_fetch => omega
    | decode _ _ unknown => exact .inl ⟨unknown, houtcome⟩
    | data _ _ decodes _ le_data => exact .inr ⟨_, decodes, .inl ⟨le_data, houtcome⟩⟩

/-- A running machine fails on the index of its instruction exactly if memory has no such word. A
fault of its data names another index. -/
theorem outcome_eq_fetch_fault_iff (running : m.status = .running)
    (aligned : m.ip.toNat % 2 = 0) :
    m.step.outcome =
        .error (.outOfBoundsAddress (Memory.wordIndex m.ip) m.memory.capacity) ↔
      m.memory.capacity ≤ Memory.wordIndex m.ip := by
  constructor
  · intro h
    by_contra hle
    rcases step_of_fetched running aligned (Nat.not_le.1 hle) with
      ⟨-, hout⟩ | ⟨op, -, ⟨hdata, hout⟩ | hstep⟩
    · cases h.symm.trans hout
    · injection h.symm.trans hout with hfault
      injection hfault with hindex
      omega
    · rw [hstep] at h
      cases h
  · intro hle
    rw [step_of_faults running (.fetch aligned hle), stop]

/-- **The disassembler and the executor agree on the next instruction.** Take any number of rows,
but at least one, of the listing that starts at the instruction pointer of a running machine, the
pointer being even. There are none exactly if the next step fails because memory has no word there.
Otherwise the first of them has the address of the pointer. It is marked as illegal exactly if the
step fails on an unknown opcode, which is the one of its word then. And if an instruction retires,
it is the one of that row: the address and the word are the same, and the opcode that is latched
has the mnemonic of the row. -/
theorem listing_shows_next_instruction (running : m.status = .running)
    (aligned : m.ip.toNat % 2 = 0) {count : Nat} (hcount : 0 < count) :
    (Listing.window m.ip count m.memory m.config.profile = [] ↔
      m.step.outcome = .error (.outOfBoundsAddress (m.ip.toNat / 2) m.memory.capacity)) ∧
    ∀ row, (Listing.window m.ip count m.memory m.config.profile).head? = some row →
      row.addr = m.ip ∧
      (row.isIllegal = true ↔ ∃ opcode ip, m.step.outcome = .error (.unknownOpcode opcode ip)) ∧
      (∀ opcode ip, m.step.outcome = .error (.unknownOpcode opcode ip) →
        opcode.toNat = row.word.toNat % 16 ∧ ip = m.ip) ∧
      ∀ r, m.step.outcome = .ok r → r.ip = row.addr ∧ r.word = row.word ∧
        ∃ op, m.step.machine.control.opcode = some op ∧ op.mnemonic = row.mnemonic := by
  constructor
  · rw [Listing.window_eq_nil_iff hcount, ← Memory.wordIndex_eq,
      outcome_eq_fetch_fault_iff running aligned]
  · intro row hrow
    obtain ⟨fetch_lt, rfl⟩ := of_head?_window_ip aligned hcount hrow
    simp only [Listing.Row.addr_ofWord, Listing.Row.word_ofWord, Listing.Row.isIllegal_ofWord]
    refine ⟨trivial, ?_⟩
    rcases step_of_fetched running aligned fetch_lt with
      ⟨hnone, hout⟩ | ⟨op, hop, ⟨-, hout⟩ | hstep⟩
    · rw [hout, hnone]
      refine ⟨by simp, fun opcode ip h => ?_, fun r h => by cases h⟩
      cases h
      exact ⟨Word.toNat_opcodeNibble _, rfl⟩
    · rw [hout, hop]
      refine ⟨by simp, fun _ _ h => ?_, fun _ h => ?_⟩ <;> cases h
    · have hmnemonic : (Listing.Row.ofWord m.ip m.pending m.config.profile).mnemonic =
          op.mnemonic := by
        rw [Listing.Row.ofWord, hop]
      rw [hstep, hop, hmnemonic]
      refine ⟨by simp [retirement], fun _ _ h => ?_, fun r h => ?_⟩ <;> cases h
      exact ⟨rfl, rfl, op, rfl, rfl⟩

/-- An addition is listed as illegal under the datapath profile, and the step fails on it. -/
theorem listing_shows_next_instruction_addition :
    let m : Machine := { new ⟨2, .datapath⟩ with
      memory := ⟨#[Word.encodeRegister .add .g0 .g0 .g0, 0]⟩ }
    let row := Listing.Row.ofWord 0 (Word.encodeRegister .add .g0 .g0 .g0) .datapath
    m.status = .running ∧ m.ip.toNat % 2 = 0 ∧
      (Listing.window m.ip 5 m.memory m.config.profile).head? = some row ∧
      row.isIllegal = true ∧
      ∃ opcode ip, m.step.outcome = .error (.unknownOpcode opcode ip) ∧
        opcode.toNat = row.word.toNat % 16 ∧ ip = m.ip := by
  intro m row
  have hrow : (Listing.window m.ip 5 m.memory m.config.profile).head? = some row := by
    have hip : m.ip = 0 := by decide
    have hword : m.pending = Word.encodeRegister .add .g0 .g0 .g0 := by decide
    rw [Listing.head?_window (by decide) (by decide), ip_and_even rfl, ← pending, hip, hword]
    rfl
  have hillegal : row.isIllegal = true := rfl
  obtain ⟨-, hshows⟩ := listing_shows_next_instruction (m := m) rfl rfl (by decide : 0 < 5)
  obtain ⟨-, hmarked, hunknown, -⟩ := hshows row hrow
  obtain ⟨opcode, ip, hout⟩ := hmarked.1 hillegal
  exact ⟨rfl, rfl, hrow, hillegal, opcode, ip, hout, hunknown opcode ip hout⟩

end Machine

end Smolisa
