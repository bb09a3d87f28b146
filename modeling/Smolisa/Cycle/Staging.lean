import Smolisa.Cycle.Datapath

/-!
# Staged Writes

The micro-cycles of an instruction do not write to the machine. Their writes are staged: the
register writes go to a working copy of the register file, where later cycles of the same
instruction see them, and a memory write waits. Beside the working copy the staging keeps one
record per register written, in the order of the first write to each, so that the commit can
be reported.

## Main results

* `Staging.stage_registers` and `Staging.stage_memoryWrite` — what one cycle adds.
* `RegisterWrite.record_of_mem` and `RegisterWrite.record_of_not_mem` — a register written
  again is reported once.
-/

namespace Smolisa

/-- Adds a write to the record of register writes. A register that is recorded already keeps
its place; its data is replaced and its mask is widened. -/
def RegisterWrite.record (w : RegisterWrite) : List RegisterWrite → List RegisterWrite
  | [] => [w]
  | v :: rest =>
    if v.register = w.register then
      { v with data := w.data, mask := v.mask.union w.mask } :: rest
    else
      v :: w.record rest

/-- The writes that an instruction has proposed so far. -/
structure Staging where
  /-- The working copy of the register file. -/
  registers : RegisterFile
  /-- One record for each register written: the word it holds now, and every lane that was
  written. -/
  registerWrites : List RegisterWrite
  /-- The memory write that waits to be committed. -/
  memoryWrite : Option MemoryWrite
  deriving DecidableEq

namespace Staging

/-- Nothing is proposed yet. -/
def start (registers : RegisterFile) : Staging :=
  ⟨registers, [], none⟩

/-- Stages a register write. -/
def stageRegister (s : Staging) (w : RegisterWrite) : Staging :=
  let registers := s.registers.write w.register w.data w.mask
  { s with
    registers := registers
    registerWrites :=
      RegisterWrite.record { w with data := registers.get w.register } s.registerWrites }

/-- Stages the writes that a micro-cycle proposes. -/
def stage (s : Staging) (effects : Effects) : Staging :=
  let s :=
    match effects.registerWrite with
    | some w => s.stageRegister w
    | none => s
  match effects.memoryWrite with
  | some w => { s with memoryWrite := some w }
  | none => s

/-- The working copy after a cycle has the cycle's register write performed. -/
theorem stage_registers (s : Staging) (effects : Effects) :
    (s.stage effects).registers =
      match effects.registerWrite with
      | some w => s.registers.write w.register w.data w.mask
      | none => s.registers := by
  rw [stage]
  cases effects.registerWrite <;> cases effects.memoryWrite <;> rfl

/-- A memory write that is proposed replaces the one that waits. -/
theorem stage_memoryWrite (s : Staging) (effects : Effects) :
    (s.stage effects).memoryWrite = effects.memoryWrite.or s.memoryWrite := by
  rw [stage]
  cases effects.registerWrite <;> cases effects.memoryWrite <;> rfl

end Staging

namespace RegisterWrite

/-- A register that is not recorded yet is recorded last. -/
theorem record_of_not_mem {w : RegisterWrite} {writes : List RegisterWrite}
    (h : ∀ v ∈ writes, v.register ≠ w.register) : w.record writes = writes ++ [w] := by
  induction writes with
  | nil => rfl
  | cons v rest ih =>
    have hv : v.register ≠ w.register := h v List.mem_cons_self
    simp [record, hv, ih fun u hu => h u (List.mem_cons_of_mem v hu)]

/-- Recording a write again adds no register to the record. -/
theorem record_of_mem {w : RegisterWrite} {writes : List RegisterWrite}
    (h : ∃ v ∈ writes, v.register = w.register) :
    (w.record writes).map register = writes.map register := by
  induction writes with
  | nil => simp at h
  | cons v rest ih =>
    by_cases hv : v.register = w.register
    · simp [record, hv]
    · have hrest : ∃ u ∈ rest, u.register = w.register := by
        obtain ⟨u, hu, hreg⟩ := h
        rcases List.mem_cons.1 hu with rfl | hu
        · exact absurd hreg hv
        · exact ⟨u, hu, hreg⟩
      simp [record, hv, ih hrest]

end RegisterWrite

end Smolisa
