import Smolisa.Proofs.Step

/-!
# The One-Shot Interpreter

The instruction set can be read without any machinery: an instruction takes its operands from
the registers, with the instruction pointer already moved on, computes one new word, and puts
it into one register or one memory cell. `Machine.interpret` does just that, in one piece. It
knows no micro-cycles, no selectors, no lane masks and no staging; bytes are replaced by
arithmetic on whole words, and shifts are multiplications and divisions by powers of two.

The machine itself goes a longer way, and this module shows that it arrives at the same place
for every opcode, every choice of registers and every memory.

## Main results

* `Opcode.registers_action` and `Opcode.memory_action` — the action of an instruction is what
  the interpreter computes.
* `Machine.step_eq_interpret` — **a step is one instruction of the interpreter.** Whenever the
  pending instruction can be fetched, decoded and has its data in memory, the step retires and
  the whole machine afterwards is the interpreted one.
-/

namespace Smolisa

namespace Word

/-! ### Replacing one byte of a word -/

/-- The word with its low byte replaced. -/
def setLow (w : Word) (b : UInt8) : Word :=
  UInt16.ofNat (w.toNat / 256 * 256 + b.toNat)

/-- The word with its high byte replaced. -/
def setHigh (w : Word) (b : UInt8) : Word :=
  UInt16.ofNat (b.toNat * 256 + w.toNat % 256)

theorem toNat_setLow (w : Word) (b : UInt8) :
    (w.setLow b).toNat = w.toNat / 256 * 256 + b.toNat := by
  have hw := w.toNat_lt
  have hb := b.toNat_lt
  exact UInt16.toNat_ofNat_of_lt' (show _ < 65536 by omega)

theorem toNat_setHigh (w : Word) (b : UInt8) :
    (w.setHigh b).toNat = b.toNat * 256 + w.toNat % 256 := by
  have hb := b.toNat_lt
  exact UInt16.toNat_ofNat_of_lt' (show _ < 65536 by omega)

/-- The high byte of a word is its quotient by 256. -/
theorem toNat_byte_high (w : Word) : (w.byte .high).toNat = w.toNat / 256 :=
  toNat_imm8 w

/-- The low byte of a word is its remainder by 256. -/
theorem toNat_byte_low (w : Word) : (w.byte .low).toNat = w.toNat % 256 := by
  simp [byte]

/-- A byte moved to the high lane is found there. -/
theorem byte_high_shiftLeft (b : UInt8) :
    Word.byte (b.toUInt16 <<< 8) .high = b := by
  have hb := b.toNat_lt
  have hshift : (b.toUInt16 <<< 8).toNat = b.toNat * 256 % 65536 := by
    rw [UInt16.toNat_shiftLeft, UInt8.toNat_toUInt16, Nat.shiftLeft_eq]
    rfl
  rw [← UInt8.toNat_inj, toNat_byte_high, hshift]
  omega

/-- Clearing the high byte leaves the low byte as it was. -/
theorem toUInt8_and_low (w : Word) : (w &&& 0x00FF).toUInt8 = w.toUInt8 := by
  have hand : (w &&& 0x00FF).toNat = w.toNat % 256 := by
    rw [UInt16.toNat_and]
    exact Nat.and_two_pow_sub_one_eq_mod w.toNat 8
  rw [← UInt8.toNat_inj, UInt16.toNat_toUInt8, UInt16.toNat_toUInt8, hand]
  exact Nat.mod_mod _ _

/-- A write through the low mask replaces the low byte. -/
theorem low_merge (old data : Word) : LaneMask.low.merge old data = old.setLow data.toUInt8 := by
  have hdata := data.toUInt8.toNat_lt
  refine byte_ext fun lane => ?_
  rw [LaneMask.byte_merge]
  cases lane with
  | low =>
      rw [LaneMask.covers, if_pos rfl, ← UInt8.toNat_inj, toNat_byte_low (old.setLow _),
        toNat_setLow, toNat_byte_low, UInt16.toNat_toUInt8]
      omega
  | high =>
      rw [LaneMask.covers, if_neg Bool.false_ne_true, ← UInt8.toNat_inj,
        toNat_byte_high (old.setLow _), toNat_setLow, toNat_byte_high]
      omega

/-- A write through the high mask replaces the high byte. -/
theorem high_merge (old data : Word) :
    LaneMask.high.merge old data = old.setHigh (data.byte .high) := by
  refine byte_ext fun lane => ?_
  rw [LaneMask.byte_merge]
  cases lane with
  | low =>
      rw [LaneMask.covers, if_neg Bool.false_ne_true, ← UInt8.toNat_inj,
        toNat_byte_low (old.setHigh _), toNat_setHigh, toNat_byte_low]
      omega
  | high =>
      rw [LaneMask.covers, if_pos rfl, ← UInt8.toNat_inj, toNat_byte_high (old.setHigh _),
        toNat_setHigh]
      omega

end Word

/-! ### The interpreter -/

/-- The register file with one register replaced. -/
def RegisterFile.set (regs : RegisterFile) (r : Register) (w : Word) : RegisterFile :=
  ⟨.ofFn fun i => if i = r.index then w else regs.get (.ofIndex i)⟩

@[simp] theorem RegisterFile.get_set (regs : RegisterFile) (r s : Register) (w : Word) :
    (regs.set r w).get s = if s = r then w else regs.get s := by
  rw [get, set]
  simp [Register.index_inj]

/-- A masked write replaces the register by the merged word. -/
theorem RegisterFile.write_eq_set (regs : RegisterFile) (r : Register) (data : Word)
    (mask : LaneMask) : regs.write r data mask = regs.set r (mask.merge (regs.get r) data) :=
  ext_get fun s => by rw [get_write, get_set]

/-- A write through the full mask replaces the register. -/
theorem RegisterFile.write_both (regs : RegisterFile) (r : Register) (data : Word) :
    regs.write r data .both = regs.set r data := by
  rw [write_eq_set, LaneMask.merge_both]

namespace Opcode

/-- The number of clock cycles of an instruction. -/
def cost : Opcode → Nat
  | li | liu => 2
  | lb | sb | lw | sw => 4
  | lrz | lrnz | add | sub | and | or | xor | shl | shr | swb => 3

/-- The registers and the memory after an instruction, given those that it finds. The
instruction pointer that it finds is already that of the next instruction. -/
def perform (op : Opcode) (word : Word) (regs : RegisterFile) (memory : Memory) :
    RegisterFile × Memory :=
  let a := regs.get word.r1
  let b := regs.get word.r2
  let c := regs.get word.r3
  let cell := memory.get (a.toNat / 2)
  match op with
  | li => (regs.set word.r1 (a.setLow word.imm8), memory)
  | liu => (regs.set word.r1 (a.setHigh word.imm8), memory)
  | lb => (regs.set word.r2 (b.setLow cell.toUInt8), memory)
  | lw => (regs.set word.r2 cell, memory)
  | sb => (regs, memory.put (a.toNat / 2) (cell.setLow b.toUInt8))
  | sw => (regs, memory.put (a.toNat / 2) b)
  | lrz => (if c = 0 then regs.set word.r1 b else regs, memory)
  | lrnz => (if c = 0 then regs else regs.set word.r1 b, memory)
  | add => (regs.set word.r1 (b + c), memory)
  | sub => (regs.set word.r1 (b - c), memory)
  | and => (regs.set word.r1 (b &&& c), memory)
  | or => (regs.set word.r1 (b ||| c), memory)
  | xor => (regs.set word.r1 (b ^^^ c), memory)
  | shl => (regs.set word.r1 (UInt16.ofNat (b.toNat * 2 ^ c.toNat)), memory)
  | shr => (regs.set word.r1 (UInt16.ofNat (b.toNat / 2 ^ c.toNat)), memory)
  | swb => (regs.set word.r1 (UInt16.ofNat (b.toNat / 256 + c.toNat % 256 * 256)), memory)

end Opcode

namespace Machine

/-- The registers that the pending instruction finds. -/
def operands (m : Machine) : RegisterFile :=
  m.registers.set .ip (m.ip + 2)

/-- The machine after its pending instruction, under a given opcode. -/
def interpret (m : Machine) (op : Opcode) : Machine :=
  let word := m.memory.get (m.ip.toNat / 2)
  let after := op.perform word m.operands m.memory
  { config := m.config
    registers := after.1
    memory := after.2
    control := {
      instruction := some word
      opcode := some op
      zeroLatch := (op == .lrz || op == .lrnz) && m.operands.get word.r3 == 0 }
    status := .running
    stats := ⟨m.stats.instructions + 1, m.stats.cycles + op.cost⟩ }

end Machine

/-! ### The operations of the arithmetic unit -/

namespace AluOp

/-- A shift to the left multiplies by a power of two. -/
theorem apply_shl (a b : Word) : shl.apply a b = UInt16.ofNat (a.toNat * 2 ^ b.toNat) := by
  rw [← UInt16.toNat_inj, UInt16.toNat_ofNat', apply]
  rcases Nat.lt_or_ge b.toNat 16 with hb | hb
  · rw [if_pos (UInt16.lt_iff_toNat_lt.2 hb), UInt16.toNat_shiftLeft, Nat.mod_eq_of_lt hb,
      Nat.shiftLeft_eq]
  · have hdvd : 2 ^ 16 ∣ a.toNat * 2 ^ b.toNat :=
      Nat.dvd_mul_left_of_dvd (Nat.pow_dvd_pow 2 hb) _
    rw [if_neg (fun hlt => Nat.not_lt.2 hb (UInt16.lt_iff_toNat_lt.1 hlt)),
      Nat.mod_eq_zero_of_dvd hdvd]
    rfl

/-- A shift to the right divides by a power of two. -/
theorem apply_shr (a b : Word) : shr.apply a b = UInt16.ofNat (a.toNat / 2 ^ b.toNat) := by
  have ha : a.toNat < 2 ^ 16 := a.toNat_lt
  have hle : a.toNat / 2 ^ b.toNat ≤ a.toNat := Nat.div_le_self _ _
  rw [← UInt16.toNat_inj, UInt16.toNat_ofNat_of_lt' (Nat.lt_of_le_of_lt hle ha), apply]
  rcases Nat.lt_or_ge b.toNat 16 with hb | hb
  · rw [if_pos (UInt16.lt_iff_toNat_lt.2 hb), UInt16.toNat_shiftRight, Nat.mod_eq_of_lt hb,
      Nat.shiftRight_eq_div_pow]
  · have hlt : a.toNat < 2 ^ b.toNat :=
      Nat.lt_of_lt_of_le ha (Nat.pow_le_pow_right (by decide) hb)
    rw [if_neg (fun hlt => Nat.not_lt.2 hb (UInt16.lt_iff_toNat_lt.1 hlt)),
      Nat.div_eq_of_lt hlt]
    rfl

/-- The byte swap joins the high byte of its first operand to the low byte of its second. -/
theorem apply_swb (a b : Word) :
    swb.apply a b = UInt16.ofNat (a.toNat / 256 + b.toNat % 256 * 256) := by
  have ha : a.toNat < 65536 := a.toNat_lt
  have hhigh : (a >>> 8).toNat = a.toNat / 256 := by
    rw [UInt16.toNat_shiftRight, Nat.shiftRight_eq_div_pow]
    rfl
  have hlow : (b <<< 8).toNat = (b.toNat % 256) <<< 8 := by
    rw [UInt16.toNat_shiftLeft, Nat.shiftLeft_eq, Nat.shiftLeft_eq]
    exact Nat.mul_mod_mul_right 256 b.toNat 256
  rw [← UInt16.toNat_inj, UInt16.toNat_ofNat_of_lt' (show _ < 65536 by omega), apply,
    UInt16.toNat_or, hhigh, hlow, Word.or_shiftLeft 8 (by omega)]
  omega

end AluOp

/-! ### The action of an instruction is what the interpreter computes -/

namespace Opcode

/-- The table of cycle counts, by opcode. -/
theorem cycles_eq_cost (op : Opcode) : op.cycles = op.cost := by
  cases op <;> rfl

theorem registers_action (op : Opcode) (word : Word) (regs : RegisterFile) (memory : Memory) :
    (op.action word regs memory).registers regs = (op.perform word regs memory).1 := by
  cases op with
  | li =>
      simp only [action, perform, Action.registers, RegisterFile.write_eq_set, Word.low_merge,
        UInt8.toUInt8_toUInt16]
  | liu =>
      simp only [action, perform, Action.registers, RegisterFile.write_eq_set, Word.high_merge,
        Word.byte_high_shiftLeft]
  | lb =>
      simp only [action, perform, Action.registers, RegisterFile.write_eq_set, Word.low_merge,
        Word.toUInt8_and_low, Memory.wordIndex_eq]
  | lw =>
      simp only [action, perform, Action.registers, RegisterFile.write_both, Memory.wordIndex_eq]
  | sb | sw => rfl
  | lrz | lrnz =>
      simp only [action, perform]
      split <;> simp only [Action.registers, RegisterFile.write_both]
  | shl =>
      simp only [action, perform, Action.registers, RegisterFile.write_both, AluOp.apply_shl]
  | shr =>
      simp only [action, perform, Action.registers, RegisterFile.write_both, AluOp.apply_shr]
  | swb =>
      simp only [action, perform, Action.registers, RegisterFile.write_both, AluOp.apply_swb]
  | add | sub | and | or | xor =>
      simp only [action, perform, Action.registers, RegisterFile.write_both, AluOp.apply]

theorem memory_action (op : Opcode) (word : Word) (regs : RegisterFile) (memory : Memory) :
    (op.action word regs memory).memory memory = (op.perform word regs memory).2 := by
  cases op with
  | sb =>
      simp only [action, perform, Action.memory, Action.stored, Word.low_merge,
        Memory.wordIndex_eq]
  | sw =>
      simp only [action, perform, Action.memory, Action.stored, LaneMask.merge_both,
        Memory.wordIndex_eq]
  | lrz | lrnz =>
      simp only [action, perform]
      split <;> rfl
  | _ => rfl

end Opcode

namespace Machine

/-- The interpreter finds the registers that the machine reads its operands from. -/
theorem operands_eq_advance (m : Machine) : m.operands = m.registers.advance := by
  rw [operands, RegisterFile.advance, RegisterFile.write_both]
  rfl

/-- The interpreter finds the word that is pending. -/
theorem get_ip_div_two (m : Machine) : m.memory.get (m.ip.toNat / 2) = m.pending := by
  rw [pending, Memory.wordIndex_eq]

/-- A retired instruction leaves a running machine as the interpreter does. -/
theorem retire_eq_interpret {m : Machine} (hm : m.status = .running) (op : Opcode) :
    m.retire op = m.interpret op := by
  have hlatch : op.zeroLatch m.pending m.registers.advance =
      ((op == .lrz || op == .lrnz) && m.registers.advance.get m.pending.r3 == 0) := by
    cases op <;> rfl
  rw [retire, interpret, operands_eq_advance, get_ip_div_two, latched, hlatch, action,
    Opcode.registers_action, Opcode.memory_action, Stats.retire, Opcode.cycles_eq_cost, hm]

/-- **A step is one instruction of the interpreter.** A running machine whose pending
instruction can be fetched and decoded, and has its data in memory, retires it; the outcome
names the instruction with its cost, and the whole machine afterwards is the interpreted
one. -/
theorem step_eq_interpret {m : Machine} {op : Opcode} (running : m.status = .running)
    (aligned : m.ip.toNat % 2 = 0) (fetch_lt : m.ip.toNat / 2 < m.memory.capacity)
    (decodes : (m.memory.get (m.ip.toNat / 2)).opcode? m.config.profile = some op)
    (data_lt : op ∈ [.lb, .sb, .lw, .sw] →
      (m.operands.get (m.memory.get (m.ip.toNat / 2)).r1).toNat / 2 < m.memory.capacity) :
    m.step.outcome = .ok ⟨m.ip, m.memory.get (m.ip.toNat / 2), op.cost⟩ ∧
      m.step.machine = m.interpret op := by
  rw [get_ip_div_two, operands_eq_advance, ← Memory.wordIndex_eq] at *
  have h : m.Executes op := by
    refine ⟨aligned, fetch_lt, decodes, fun haccess => data_lt ?_⟩
    cases op <;> first | decide | cases haccess
  rw [step_of_executes running h]
  refine ⟨?_, retire_eq_interpret running op⟩
  rw [retirement, op.cycles_eq_cost]

/-- A machine that is about to load its instruction pointer from memory. -/
def returning : Machine :=
  { new ⟨2, .full⟩ with
    registers := RegisterFile.zero.set .g1 2
    memory := ⟨#[Word.encodeRegister .lw .g1 .ip .g0, 6]⟩ }

/-- The loaded word, not the advance, decides where the machine goes on. -/
theorem step_eq_interpret_returning :
    returning.step.outcome = .ok ⟨0, Word.encodeRegister .lw .g1 .ip .g0, Opcode.lw.cost⟩ ∧
      returning.step.machine = returning.interpret .lw ∧
      (returning.interpret .lw).ip = 6 := by
  have hdata : Opcode.lw ∈ [.lb, .sb, .lw, .sw] →
      (returning.operands.get (returning.memory.get (returning.ip.toNat / 2)).r1).toNat / 2 <
        returning.memory.capacity := by
    decide
  obtain ⟨houtcome, hmachine⟩ :=
    step_eq_interpret (m := returning) rfl (by decide) (by decide) (by decide) hdata
  exact ⟨houtcome, hmachine, by decide⟩

end Machine

end Smolisa
