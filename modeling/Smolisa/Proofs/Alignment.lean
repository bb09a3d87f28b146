import Smolisa.Proofs.Dependence
import Smolisa.Proofs.History

/-!
# Odd Instruction Pointers

A machine starts at address zero, and an instruction that leaves its pointer alone advances it by
two, from the last word back to the first one if need be. So an odd pointer is always the doing of
an instruction that has the pointer as its target: a jump, or any other that loads or computes a
word into it. The next fetch fails then, before anything else can happen. Therefore the instruction
at fault is the last one that has retired, and it is latched still.

## Main results

* `Machine.Executes.target?_eq_ip` — an instruction that leaves the pointer odd has it as its
  target.
* `Machine.historyInvariant_alignment` — **an odd pointer is the work of the last instruction**, in
  every history.
* `Machine.misaligned_fetch_follows_jump` — **a misaligned fetch is always the latched jump's
  fault.**
-/

namespace Smolisa

/-- The register that the instruction in a word is to set. -/
def Word.target? (w : Word) : Option Register :=
  (Opcode.ofNibble? w.opcodeNibble).bind fun op => op.target? w

/-- The advance from one instruction to the next keeps the parity of the address, also where it
wraps around. -/
theorem Word.toNat_add_two_mod_two (w : Word) : (w + 2).toNat % 2 = w.toNat % 2 := by
  have hadd : (w + 2).toNat = (w.toNat + 2) % 65536 := UInt16.toNat_add w 2
  omega

namespace Machine

/-! ### One instruction -/

/-- A word that decodes has the target of its opcode. -/
theorem Executes.target?_pending {m : Machine} {op : Opcode} (h : m.Executes op) :
    m.pending.target? = op.target? m.pending := by
  rw [Word.target?, Opcode.ofNibble?_of_decode? h.decodes]
  rfl

/-- An instruction that does not have the pointer as its target advances it. -/
theorem ip_retire_of_target?_ne {m : Machine} {op : Opcode}
    (h : op.target? m.pending ≠ some .ip) : (m.retire op).ip = m.ip + 2 := by
  have hkept : Set.EqOn (m.retire op).registers.get m.registers.advance.get {.ip} := by
    refine Action.eqOn_registers_of_not_mem fun w hw hmem => h ?_
    rw [Opcode.target?_of_action_eq hw]
    exact congrArg some hmem
  exact (hkept rfl).trans m.registers.ip_advance

/-- An instruction that leaves the pointer odd has it as its target, since it was fetched from an
even address itself. -/
theorem Executes.target?_eq_ip {m : Machine} {op : Opcode} (h : m.Executes op)
    (hodd : (m.retire op).ip.toNat % 2 = 1) : op.target? m.pending = some .ip := by
  by_contra hne
  rw [ip_retire_of_target?_ne hne, Word.toNat_add_two_mod_two, h.aligned] at hodd
  cases hodd

/-! ### Histories -/

/-- The last instruction of a history is latched, and it has the instruction pointer as its
target. -/
def Jumped (m : Machine) (history : List Retirement) : Prop :=
  ∃ r, history.getLast? = some r ∧ m.control.instruction = some r.word ∧
    r.word.target? = some .ip

/-- How a history accounts for the parity of the instruction pointer. -/
structure Aligned (m : Machine) (history : List Retirement) : Prop where
  /-- An odd pointer was set by the last instruction. -/
  jumped : m.ip.toNat % 2 = 1 → m.Jumped history
  /-- A machine that has stopped on its pointer has an odd one. -/
  odd : ∀ ip, m.status = .stopped (.misalignedFetch ip) → m.ip.toNat % 2 = 1

/-- An even pointer needs no account, unless the machine has stopped on it. -/
theorem aligned_of_even {history : List Retirement} {m : Machine} (heven : m.ip.toNat % 2 = 0)
    (hstatus : ∀ ip, m.status ≠ .stopped (.misalignedFetch ip)) : m.Aligned history where
  jumped := by
    intro hodd
    rw [heven] at hodd
    cases hodd
  odd := fun ip hstop => absurd hstop (hstatus ip)

/-- **An odd pointer is the work of the last instruction.** One that retires finds an even pointer,
and one that fails leaves the pointer as it is. -/
theorem historyInvariant_alignment : HistoryInvariant fun history m => m.Aligned history where
  retires := by
    intro history m r _ hr
    obtain ⟨hrun, op, hexec, hstep⟩ := step_of_outcome_ok hr
    rw [hstep] at hr ⊢
    cases hr
    refine ⟨fun hodd => ⟨_, List.getLast?_concat, rfl, ?_⟩, fun ip hstop => ?_⟩
    · exact hexec.target?_pending.trans (hexec.target?_eq_ip hodd)
    · cases hrun.symm.trans hstop
  fails := by
    intro history m fault hm hfault
    rcases m.step_cases with ⟨_, -, hstep⟩ | ⟨-, _, control, hfaults, hstep⟩ | ⟨-, _, -, hstep⟩
    · rw [hstep]
      exact hm
    · rw [hstep]
      cases hfaults with
      | misaligned odd => exact ⟨hm.jumped, fun _ _ => odd⟩
      | fetch aligned _ | decode aligned _ _ | data aligned _ _ _ _ =>
          exact aligned_of_even aligned fun _ hstop => by cases hstop
    · rw [hstep] at hfault
      cases hfault

/-! ### From the start -/

/-- A machine at its start: as it was built, with a program or without one, or as a load or a reset
has left it. -/
inductive Fresh : Machine → Prop
  | new (config : Config) : Fresh (new config)
  | ofImage {config : Config} {image : Array Word} {m : Machine}
      (h : ofImage config image = .ok m) : Fresh m
  | load {m m' : Machine} {image : Array Word} (h : m.load image = .ok m') : Fresh m'
  | reset (m : Machine) : Fresh m.reset

/-- At its start a machine stands at address zero and runs. -/
theorem Fresh.aligned {m : Machine} (h : m.Fresh) : m.Aligned [] := by
  have hload {m m' : Machine} {image : Array Word} (h : m.load image = .ok m') :
      m'.Aligned [] := by
    obtain ⟨_, -, rfl⟩ := load_eq_ok_iff.1 h
    exact aligned_of_even rfl fun _ hstop => by cases hstop
  cases h with
  | new | reset => exact aligned_of_even rfl fun _ hstop => by cases hstop
  | ofImage h | load h => exact hload h

/-- The pointer is even, unless an instruction of the history has had it as its target. -/
theorem Aligned.even {history : List Retirement} {m : Machine} (h : m.Aligned history)
    (hnone : ∀ r ∈ history, r.word.target? ≠ some .ip) : m.ip.toNat % 2 = 0 := by
  rcases Nat.mod_two_eq_zero_or_one m.ip.toNat with heven | hodd
  · exact heven
  · obtain ⟨r, hlast, -, htarget⟩ := h.jumped hodd
    exact absurd htarget (hnone r (List.mem_of_getLast? hlast))

/-- **A misaligned fetch is always the latched jump's fault.** Let a machine have answered any calls
since its start, none of which restarted it. If it has stopped with a misaligned fetch, or if its
next step raises one, then an instruction has retired since the start, and the last one to do so
has the instruction pointer as its target and is latched. As long as no instruction with that target
retires, the pointer stays even. -/
theorem misaligned_fetch_follows_jump {m : Machine} (hm : m.Fresh) {calls : List Call}
    (hcalls : ∀ x ∈ m.session calls, ¬ x.1.Restarts x.2) :
    (∀ ip, (m.after calls).status = .stopped (.misalignedFetch ip) →
      ∃ r, (m.retired calls).getLast? = some r ∧
        (m.after calls).control.instruction = some r.word ∧ r.word.target? = some .ip) ∧
    (∀ ip, (m.after calls).step.outcome = .error (.misalignedFetch ip) →
      ∃ r, (m.retired calls).getLast? = some r ∧
        (m.after calls).step.machine.control.instruction = some r.word ∧
        r.word.target? = some .ip) ∧
    ((∀ r ∈ m.retired calls, r.word.target? ≠ some .ip) →
      (m.after calls).ip.toNat % 2 = 0) := by
  have hafter : (m.after calls).Aligned (m.retired calls) :=
    historyInvariant_alignment.after hm.aligned hcalls
  refine ⟨fun ip hstop => hafter.jumped (hafter.odd ip hstop), fun ip hfault => ?_, hafter.even⟩
  have hfailed := historyInvariant_alignment.fails hafter hfault
  have hstop : (m.after calls).step.machine.status = .stopped (.misalignedFetch ip) := by
    rw [machine_of_outcome_error hfault]
  exact hfailed.jumped (hfailed.odd ip hstop)

/-- A byte of seven, loaded into the low half of the instruction pointer, is where the next fetch
fails. A program that is rejected in between makes no difference. -/
theorem misaligned_fetch_follows_jump_loaded :
    let load : Word := Word.encodeRegister .lb .g1 .ip .g0
    let m : Machine :=
      { new ⟨3, .full⟩ with memory := ⟨#[Word.encodeImmediate .li .g1 4, load, 7]⟩ }
    let calls : List Call := [.run 2, .load #[1, 2, 3, 4], .step]
    (m.after calls).status = .stopped (.misalignedFetch 7) ∧
      ∃ r, (m.retired calls).getLast? = some r ∧
        (m.after calls).control.instruction = some r.word ∧ r.word.target? = some .ip := by
  intro load m calls
  have hm : m.Fresh := by
    have himage : ofImage ⟨3, .full⟩ m.memory.words = .ok m := rfl
    exact .ofImage himage
  have hcalls : ∀ x ∈ m.session calls, ¬ x.1.Restarts x.2 := by
    intro x hx
    simp only [calls, session, List.mem_cons, List.not_mem_nil, or_false] at hx
    rcases hx with rfl | rfl | rfl
    · exact id
    · exact mt Call.restarts_load_iff.1 (by decide)
    · exact id
  have hstop : (m.after calls).status = .stopped (.misalignedFetch 7) := by decide
  exact ⟨hstop, (misaligned_fetch_follows_jump hm hcalls).1 7 hstop⟩

end Machine

end Smolisa
