import Smolisa.Proofs.FaultConditions
import Smolisa.Proofs.Lockstep

/-!
# The Profiles Compared

The datapath profile is a part of the full one. What a machine does under it, the same machine
does under the full profile too: an opcode that both profiles admit means the same in both, and
the profile is looked at nowhere but in the decoding. The two machines part only where the one
with the datapath profile meets an opcode that it does not admit. There it fails with that
opcode, and the other one may go on.

## Main results

* `Machine.lockstep_widens` — a machine with the datapath profile, and the same machine with the
  full one, take the same steps up to unknown opcodes.
* `Machine.datapath_restricts_full` — **the datapath profile is a conservative restriction of
  the full one**, over runs of any length.
-/

namespace Smolisa

namespace Word

/-- What decodes under some profile decodes to the same opcode under the full one. -/
theorem opcode?_full_of_some {profile : Profile} {w : Word} {op : Opcode}
    (h : w.opcode? profile = some op) : w.opcode? .full = some op := by
  have hnibble := (Opcode.decode?_eq_some_iff.1 h).1
  exact Opcode.decode?_eq_some_iff.2 ⟨hnibble, rfl⟩

/-- The two patterns that the datapath profile admits are no unknown opcodes. -/
theorem opcodeNibble_ne_of_unknown {profile : Profile} {w : Word}
    (h : w.opcode? profile = none) : w.opcodeNibble ≠ 0x0 ∧ w.opcodeNibble ≠ 0xB := by
  constructor
  · intro h0
    rw [opcode?, h0] at h
    cases profile <;> cases h
  · intro hB
    rw [opcode?, hB] at h
    cases profile <;> cases h

end Word

namespace Machine

/-- The machine with another profile. -/
def withProfile (m : Machine) (profile : Profile) : Machine :=
  { m with config := { m.config with profile := profile } }

/-- The second machine is the first one, with the full profile in place of the datapath one. -/
structure Widens (a b : Machine) : Prop where
  profile : a.config.profile = .datapath
  eq : b = a.withProfile .full

/-! ### A single step -/

/-- What is executed under some profile is executed under the full one. -/
theorem Executes.withProfile_full {m : Machine} {op : Opcode} (h : m.Executes op) :
    (m.withProfile .full).Executes op :=
  ⟨h.aligned, h.fetch_lt, Word.opcode?_full_of_some h.decodes, h.data_lt⟩

/-- What fails under some profile fails under the full one, except on an unknown opcode. -/
theorem Faults.withProfile_full {m : Machine} {fault : Fault} {control : ControlUnit}
    (h : m.Faults fault control) :
    (m.withProfile .full).Faults fault control ∨
      ∃ opcode ip, fault = .unknownOpcode opcode ip := by
  cases h with
  | misaligned odd => exact .inl (.misaligned odd)
  | fetch aligned le_fetch => exact .inl (.fetch aligned le_fetch)
  | decode _ _ _ => exact .inr ⟨_, _, rfl⟩
  | data aligned fetch_lt decodes accesses le_data =>
      exact .inl (.data aligned fetch_lt (Word.opcode?_full_of_some decodes) accesses le_data)

/-- A step of a machine with the datapath profile, and of the same machine with the full one. -/
theorem lockstep_widens :
    Lockstep Widens fun fault => ∃ opcode ip, fault = .unknownOpcode opcode ip := by
  rintro a _ ⟨hprofile, rfl⟩
  rcases a.step_cases with ⟨fault, hstop, hstep⟩ | ⟨hrun, fault, control, hfaults, hstep⟩ |
    ⟨hrun, op, hexec, hstep⟩
  · have hstop' : (a.withProfile .full).status = .stopped fault := hstop
    rw [hstep, step_of_stopped hstop']
    exact .inl ⟨rfl, rfl, hprofile, rfl⟩
  · have hrun' : (a.withProfile .full).status = .running := hrun
    rcases hfaults.withProfile_full with hfaults' | hunknown
    · rw [hstep, step_of_faults hrun' hfaults']
      exact .inl ⟨rfl, rfl, hprofile, rfl⟩
    · rw [hstep]
      exact .inr ⟨fault, hunknown, rfl⟩
  · have hrun' : (a.withProfile .full).status = .running := hrun
    rw [hstep, step_of_executes hrun' hexec.withProfile_full]
    exact .inl ⟨rfl, rfl, hprofile, rfl⟩

/-- An opcode that a running machine does not know is the one of its pending instruction, and
it is not one of the two that every profile admits. -/
theorem unknownOpcode_of_outcome_error {m : Machine} (running : m.status = .running)
    {opcode : UInt8} {ip : Word} (h : m.step.outcome = .error (.unknownOpcode opcode ip)) :
    ip = m.ip ∧ opcode ≠ 0x0 ∧ opcode ≠ 0xB ∧
      ∃ word, m.memory.read (m.ip.toNat / 2) = .ok word ∧ opcode = word.opcodeNibble := by
  rcases m.step_cases with ⟨_, hstop, -⟩ | ⟨-, _, _, hfaults, hstep⟩ | ⟨-, _, -, hstep⟩
  · cases running.symm.trans hstop
  · rw [hstep] at h
    cases h
    cases hfaults with
    | decode aligned fetch_lt unknown =>
        obtain ⟨h0, hB⟩ := Word.opcodeNibble_ne_of_unknown unknown
        exact ⟨rfl, h0, hB, m.pending, read_pending fetch_lt, rfl⟩
  · rw [hstep] at h
    cases h

/-! ### Runs -/

/-- **The datapath profile is a conservative restriction of the full one.** A run that succeeds
under the datapath profile succeeds under the full one, with the same report and the same machine
up to the profile. If it fails after `k` instructions, then these instructions retire under the
full profile too, and lead to the same machine up to the profile; and either the fault is that
the opcode of the pending instruction is not one of the two that the datapath profile admits, or
the next step fails under the full profile with the same fault. -/
theorem datapath_restricts_full {a b : Machine} (h : a.Widens b) (running : a.status = .running)
    (n : Nat) :
    (∀ done a', a.run n = (.ok done, a') → ∃ b', b.run n = (.ok done, b') ∧ a'.Widens b') ∧
    ∀ fault a', a.run n = (.error fault, a') → ∃ k < n, a.FailsAfter k fault ∧
      (∀ i < k, (b.steps i).step.outcome = (a.steps i).step.outcome) ∧
      (a.steps k).Widens (b.steps k) ∧
      ((∃ opcode word, fault = .unknownOpcode opcode (a.steps k).ip ∧
          opcode ≠ 0x0 ∧ opcode ≠ 0xB ∧ opcode = word.opcodeNibble ∧
          (a.steps k).memory.read ((a.steps k).ip.toNat / 2) = .ok word) ∨
        (b.steps k).step.outcome = .error fault) := by
  refine ⟨fun done a' hrun => lockstep_widens.run_ok h hrun, fun fault a' hrun => ?_⟩
  obtain ⟨k, hk, hfails, -⟩ := run_eq_error_iff.1 hrun
  have houtcomes (i : Nat) (hi : i < k) :
      (b.steps i).step.outcome = (a.steps i).step.outcome :=
    lockstep_widens.outcome_eq h hfails.retires hi
  refine ⟨k, hk, hfails, houtcomes, lockstep_widens.steps h hfails.retires, ?_⟩
  by_cases hunknown : ∃ opcode ip, fault = .unknownOpcode opcode ip
  · obtain ⟨opcode, ip, rfl⟩ := hunknown
    have hgoes : a.GoesOn .steps k := goesOn_steps_iff.2 hfails.retires
    obtain ⟨rfl, h0, hB, word, hread, hword⟩ :=
      unknownOpcode_of_outcome_error (status_steps_of_goesOn running hgoes) hfails.fails
    exact .inl ⟨opcode, word, rfl, h0, hB, hword, hread⟩
  · exact .inr (lockstep_widens.failsAfter h hfails hunknown).1.fails

/-- A program of a load and an addition. Under the datapath profile the load retires, and then
the opcode of the addition is unknown. -/
theorem datapath_restricts_full_addition :
    let a : Machine := { new ⟨2, .datapath⟩ with
      memory := ⟨#[Word.encodeImmediate .li .g0 2, Word.encodeRegister .add .g0 .g0 .g0]⟩ }
    let b := a.withProfile .full
    (a.run 1).1 = .ok ⟨1, 2, true⟩ ∧ (b.run 1).1 = .ok ⟨1, 2, true⟩ ∧
      (a.run 2).1 = .error (.unknownOpcode 0x8 2) ∧
      ∃ k < 2, a.FailsAfter k (.unknownOpcode 0x8 2) ∧ (a.steps k).Widens (b.steps k) := by
  intro a b
  have hwidens : a.Widens b := ⟨rfl, rfl⟩
  have hone : (a.run 1).1 = .ok ⟨1, 2, true⟩ := by decide
  have htwo : (a.run 2).1 = .error (.unknownOpcode 0x8 2) := by decide
  obtain ⟨b', hb, -⟩ := (datapath_restricts_full hwidens rfl 1).1 _ _ (Prod.ext hone rfl)
  obtain ⟨k, hk, hfails, -, hrelated, -⟩ :=
    (datapath_restricts_full hwidens rfl 2).2 _ _ (Prod.ext htwo rfl)
  exact ⟨hone, congrArg Prod.fst hb, htwo, k, hk, hfails, hrelated⟩

end Machine

end Smolisa
