import Mathlib
import Smolisa.Machine.Step

/-!
# The Action of an Instruction

Every instruction advances the instruction pointer, and then it does at most one thing more:
it writes some lanes of one register, or some lanes of one memory word. Which of them, and
with what data, is the `Action` of the instruction. It is read off the instruction word, the
registers with the pointer already advanced, and the memory word that the instruction
accesses; nothing that the control unit remembers from earlier instructions enters it.

The datapath knows nothing of actions. It works through a micro-program of one or two cycles,
each of them given by thirteen signals, and stages what the cycles propose. This module shows
that what has been staged at the end is the action, and nothing else.

Memory is seen here as a total table, `Memory.get` and `Memory.put`, in which there is no
failure to think about once an index is known to be below the capacity.

## Main results

* `Bus.drive_lastBus` — the last cycle of a micro-program proposes the action of its opcode,
  or it fails because the word to be accessed does not exist.
* `ControlUnit.run_microProgram` — a whole micro-program amounts to its last cycle; the
  condition test in front of a conditional move only decides which bus that cycle has.
* `Staging.stage_action` — what is staged after the fetch and the action.
* `Memory.commit_action` — the commit of an action performs it.
-/

namespace Smolisa

namespace Memory

/-! ### Memory as a total table -/

/-- The word at an index, zero where there is none. -/
def get (m : Memory) (index : Nat) : Word :=
  m.words.getD index 0

/-- Replaces the word at an index, if there is one. -/
def put (m : Memory) (index : Nat) (w : Word) : Memory :=
  ⟨m.words.setIfInBounds index w⟩

/-- A read below the capacity gives the word held there. -/
theorem read_of_lt {m : Memory} {index : Nat} (h : index < m.capacity) :
    m.read index = .ok (m.get index) := by
  have hlt : index < m.words.size := h
  simp [read, get, hlt]

/-- A masked write below the capacity replaces the word by the merged one. -/
theorem write_of_lt {m : Memory} {index : Nat} (h : index < m.capacity) (data : Word)
    (mask : LaneMask) :
    m.write index data mask = .ok (m.put index (mask.merge (m.get index) data)) := by
  have hlt : index < m.words.size := h
  simp [write, put, get, hlt, Array.setIfInBounds]

@[simp] theorem capacity_put (m : Memory) (index : Nat) (w : Word) :
    (m.put index w).capacity = m.capacity := by
  simp [put, capacity]

/-- The table after a replacement, word by word. -/
theorem get_put (m : Memory) (index i : Nat) (w : Word) :
    (m.put index w).get i = if i = index ∧ i < m.capacity then w else m.get i := by
  by_cases hi : i = index
  · subst hi
    by_cases hlt : i < m.words.size <;> simp [get, put, capacity, hlt]
  · simp [get, put, hi, Ne.symm hi]

/-- Two memories are equal if they have the same capacity and hold the same words. -/
theorem ext_get {a b : Memory} (hcap : a.capacity = b.capacity)
    (h : ∀ i, i < a.capacity → a.get i = b.get i) : a = b := by
  obtain ⟨a⟩ := a
  obtain ⟨b⟩ := b
  congr 1
  refine Array.ext hcap fun i ha hb => ?_
  simpa [get, ha, hb] using h i ha

/-- A replacement changes the memory exactly if it changes the word. -/
theorem put_eq_self_iff {m : Memory} {index : Nat} (h : index < m.capacity) (w : Word) :
    m.put index w = m ↔ w = m.get index := by
  constructor
  · intro heq
    have hget := congrArg (fun m' : Memory => m'.get index) heq
    simpa [get_put, h] using hget
  · rintro rfl
    refine ext_get (capacity_put m _ _) fun i _ => ?_
    rw [get_put]
    split
    · next hi => rw [hi.1]
    · rfl

end Memory

/-! ### Actions -/

/-- What an instruction does beside advancing the instruction pointer. -/
inductive Action
  | nothing
  | setRegister (write : RegisterWrite)
  | setMemory (write : MemoryWrite)
  deriving DecidableEq

/-- The register file with the instruction pointer moved to the next instruction. This is the
register file that an instruction reads its operands from. -/
def RegisterFile.advance (regs : RegisterFile) : RegisterFile :=
  regs.write .ip (regs.ip + 2) .both

namespace Opcode

/-- Whether the instructions with a given opcode access memory, beyond their own fetch. -/
def accessesMemory : Opcode → Bool
  | lb | sb | lw | sw => true
  | _ => false

/-- The register that an instruction is to set. That of a conditional move is its target whether
the condition holds or not, and a store has none. -/
def target? (op : Opcode) (word : Word) : Option Register :=
  match op with
  | li | liu | lrz | lrnz | add | sub | and | or | xor | shl | shr | swb => some word.r1
  | lb | lw => some word.r2
  | sb | sw => none

/-- What the condition test of an opcode leaves in the zero latch: the opcodes without a
condition leave it clear. -/
def zeroLatch (op : Opcode) (word : Word) (regs : RegisterFile) : Bool :=
  match op with
  | lrz | lrnz => regs.get word.r3 == 0
  | _ => false

/-- The action of an instruction, given the registers that its operands are read from. -/
def action (op : Opcode) (word : Word) (regs : RegisterFile) (memory : Memory) : Action :=
  let a := regs.get word.r1
  let b := regs.get word.r2
  let c := regs.get word.r3
  let combine (f : AluOp) : Action := .setRegister ⟨word.r1, f.apply b c, .both⟩
  let move : Action := .setRegister ⟨word.r1, b, .both⟩
  match op with
  | li => .setRegister ⟨word.r1, word.imm8.toUInt16, .low⟩
  | liu => .setRegister ⟨word.r1, word.imm8.toUInt16 <<< 8, .high⟩
  | lb => .setRegister ⟨word.r2, memory.get (Memory.wordIndex a) &&& 0x00FF, .low⟩
  | lw => .setRegister ⟨word.r2, memory.get (Memory.wordIndex a), .both⟩
  | sb => .setMemory ⟨Memory.wordIndex a, b, .low⟩
  | sw => .setMemory ⟨Memory.wordIndex a, b, .both⟩
  | lrz => if c = 0 then move else .nothing
  | lrnz => if c = 0 then .nothing else move
  | add => combine .add
  | sub => combine .sub
  | and => combine .and
  | or => combine .or
  | xor => combine .xor
  | shl => combine .shl
  | shr => combine .shr
  | swb => combine .swb

/-- The bus of the last cycle of an opcode's micro-program, given the zero latch. -/
def lastBus (op : Opcode) (zero : Bool) : Bus :=
  match op with
  | lrz | lrnz => .conditionalMove (Bus.moves op zero)
  | _ => .execute op

/-- The opcodes that access memory are the two loads and the two stores. -/
theorem accessesMemory_iff_mem {op : Opcode} :
    op.accessesMemory = true ↔ op ∈ [lb, sb, lw, sw] := by
  cases op <;> decide

/-- The opcodes that the datapath profile admits do not access memory. -/
theorem accessesMemory_of_datapath {op : Opcode} (h : Profile.datapath.admits op = true) :
    op.accessesMemory = false := by
  cases op <;> first | rfl | cases h

/-- Only the opcodes that access memory store to it, and they store to the word that they
access. -/
theorem action_eq_setMemory {op : Opcode} {word : Word} {regs : RegisterFile}
    {memory : Memory} {w : MemoryWrite} (h : op.action word regs memory = .setMemory w) :
    op.accessesMemory = true ∧ w.index = Memory.wordIndex (regs.get word.r1) := by
  cases op <;> simp only [action, reduceCtorEq] at h
  case sb | sw => cases h; exact ⟨rfl, rfl⟩
  case lrz | lrnz => split at h <;> cases h

/-- An instruction sets no register but its target. -/
theorem target?_of_action_eq {op : Opcode} {word : Word} {regs : RegisterFile}
    {memory : Memory} {w : RegisterWrite} (h : op.action word regs memory = .setRegister w) :
    op.target? word = some w.register := by
  cases op <;> simp only [action, reduceCtorEq] at h
  case lrz | lrnz =>
    split at h
    all_goals cases h
    rfl
  all_goals
    cases h
    rfl

/-- An opcode that accesses memory leaves the zero latch clear. -/
theorem zeroLatch_of_accessesMemory {op : Opcode} (h : op.accessesMemory = true) (word : Word)
    (regs : RegisterFile) : op.zeroLatch word regs = false := by
  cases op <;> first | rfl | cases h

end Opcode

namespace Action

/-- The register write of an action. -/
def registerWrite : Action → Option RegisterWrite
  | setRegister w => some w
  | _ => none

/-- The memory write of an action. -/
def memoryWrite : Action → Option MemoryWrite
  | setMemory w => some w
  | _ => none

/-- Performs the register write of an action. -/
def registers (regs : RegisterFile) : Action → RegisterFile
  | setRegister w => regs.write w.register w.data w.mask
  | _ => regs

/-- The word that a memory write leaves behind. -/
def stored (memory : Memory) (w : MemoryWrite) : Word :=
  w.mask.merge (memory.get w.index) w.data

/-- Performs the memory write of an action. -/
def memory (before : Memory) : Action → Memory
  | setMemory w => before.put w.index (stored before w)
  | _ => before

/-- An action keeps the capacity of memory. -/
@[simp] theorem capacity_memory (action : Action) (before : Memory) :
    (action.memory before).capacity = before.capacity := by
  cases action with
  | nothing | setRegister _ => rfl
  | setMemory w => exact Memory.capacity_put _ _ _

/-- The write of an action to a register other than the instruction pointer, as an observer
sees it: with the whole register afterwards as its data. -/
def sideWrite (regs : RegisterFile) : Action → Option RegisterWrite
  | setRegister w =>
    if w.register = .ip then
      none
    else
      some { w with data := (regs.write w.register w.data w.mask).get w.register }
  | _ => none

/-- The memory write of an action, as an observer sees it: with the whole word afterwards as
its data. -/
def store (before : Memory) : Action → Option MemoryWrite
  | setMemory w => some { w with data := stored before w }
  | _ => none

end Action

/-! ### The micro-cycles of an instruction -/

/-- A cycle that accesses memory fails exactly on a word that does not exist. -/
theorem Bus.drive_of_touches {bus : Bus} (h : bus.touchesMemory = true) (word : Word)
    (regs : RegisterFile) (memory : Memory) :
    bus.drive word regs memory =
      if memory.capacity ≤ bus.memoryIndex word regs then
        .error (.outOfBoundsAddress (bus.memoryIndex word regs) memory.capacity)
      else
        .ok ⟨bus.aluOutput word regs, memory.get (bus.memoryIndex word regs),
          bus.registerWrite word regs (memory.get (bus.memoryIndex word regs)),
          bus.memoryWrite word regs⟩ := by
  rw [drive, loadData_of_touches h]
  rcases Nat.lt_or_ge (bus.memoryIndex word regs) memory.capacity with hlt | hle
  · rw [Memory.read_of_lt hlt, if_neg (Nat.not_le.2 hlt)]
  · rw [Memory.read_of_le hle, if_pos hle]

/-- A cycle that does not access memory succeeds. -/
theorem Bus.drive_of_not_touches {bus : Bus} (h : bus.touchesMemory = false) (word : Word)
    (regs : RegisterFile) (memory : Memory) :
    bus.drive word regs memory =
      .ok ⟨bus.aluOutput word regs, 0, bus.registerWrite word regs 0,
        bus.memoryWrite word regs⟩ := by
  rw [drive, loadData_of_not_touches h]

/-- The fetch cycle loads the word at the instruction pointer and proposes to advance the
pointer. It fails exactly on a word that does not exist. -/
theorem Bus.drive_fetch (regs : RegisterFile) (memory : Memory) :
    Bus.fetch.drive 0 regs memory =
      if memory.capacity ≤ Memory.wordIndex regs.ip then
        .error (.outOfBoundsAddress (Memory.wordIndex regs.ip) memory.capacity)
      else
        .ok ⟨AluOp.add.compute regs.ip 2, memory.get (Memory.wordIndex regs.ip),
          some ⟨.ip, regs.ip + 2, .both⟩, none⟩ :=
  drive_of_touches rfl 0 regs memory

/-- The last cycle of an opcode accesses memory exactly if the opcode does. -/
theorem Opcode.touchesMemory_lastBus (op : Opcode) (zero : Bool) :
    (op.lastBus zero).touchesMemory = op.accessesMemory := by
  cases op <;> rfl

/-- The last cycle of an opcode that accesses memory finds the address in its first
register. -/
theorem Opcode.memoryIndex_lastBus {op : Opcode} (h : op.accessesMemory = true) (zero : Bool)
    (word : Word) (regs : RegisterFile) :
    (op.lastBus zero).memoryIndex word regs = Memory.wordIndex (regs.get word.r1) := by
  cases op <;> first | rfl | cases h

/-- The last cycle of an opcode proposes the register write of its action. -/
theorem Opcode.registerWrite_lastBus (op : Opcode) (word : Word) (regs : RegisterFile)
    (memory : Memory) :
    (op.lastBus (op.zeroLatch word regs)).registerWrite word regs
        (if op.accessesMemory then memory.get (Memory.wordIndex (regs.get word.r1)) else 0) =
      (op.action word regs memory).registerWrite := by
  cases op
  case lrz | lrnz =>
    by_cases h : regs.get word.r3 = 0 <;>
      simp [lastBus, zeroLatch, action, Bus.registerWrite, Bus.conditionalMove, Bus.moves,
        Bus.aluOutput, Bus.source1Data, OperandSelect.resolve, ResultSelect.resolve,
        RegisterSelect.resolve, Bus.registerMask, Action.registerWrite, h]
  all_goals rfl

/-- The last cycle of an opcode proposes the memory write of its action. -/
theorem Opcode.memoryWrite_lastBus (op : Opcode) (word : Word) (regs : RegisterFile)
    (memory : Memory) :
    (op.lastBus (op.zeroLatch word regs)).memoryWrite word regs =
      (op.action word regs memory).memoryWrite := by
  cases op
  case lrz | lrnz =>
    by_cases h : regs.get word.r3 = 0 <;>
      simp [lastBus, zeroLatch, action, Bus.memoryWrite, Bus.conditionalMove, Bus.idle,
        Action.memoryWrite, h]
  all_goals rfl

/-- **The last cycle proposes the action.** It can fail only on the word that it accesses. -/
theorem Bus.drive_lastBus (op : Opcode) (word : Word) (regs : RegisterFile) (memory : Memory) :
    (op.lastBus (op.zeroLatch word regs)).drive word regs memory =
      if op.accessesMemory = true ∧ memory.capacity ≤ Memory.wordIndex (regs.get word.r1) then
        .error (.outOfBoundsAddress (Memory.wordIndex (regs.get word.r1)) memory.capacity)
      else
        .ok {
          alu := (op.lastBus (op.zeroLatch word regs)).aluOutput word regs
          readData :=
            if op.accessesMemory then memory.get (Memory.wordIndex (regs.get word.r1)) else 0
          registerWrite := (op.action word regs memory).registerWrite
          memoryWrite := (op.action word regs memory).memoryWrite } := by
  have htouches := op.touchesMemory_lastBus (op.zeroLatch word regs)
  rw [← op.registerWrite_lastBus, ← op.memoryWrite_lastBus word regs memory]
  cases hop : op.accessesMemory with
  | false =>
      rw [drive_of_not_touches (htouches.trans hop)]
      simp
  | true =>
      rw [drive_of_touches (htouches.trans hop), Opcode.memoryIndex_lastBus hop]
      simp

/-- The condition test changes nothing but the zero latch, which it leaves at the outcome of
the test. -/
theorem ControlUnit.run_testCondition (word : Word) (memory : Memory) {op : Opcode}
    (rest : List MicroOp) (staging : Staging) :
    ControlUnit.run word memory (.testCondition :: rest) ⟨some word, some op, false⟩ staging =
      ControlUnit.run word memory rest
        ⟨some word, some op, staging.registers.get word.r3 == 0⟩ staging := by
  have halu : Bus.testCondition.aluOutput word staging.registers =
      ⟨staging.registers.get word.r3, staging.registers.get word.r3 == 0⟩ :=
    AluOp.compute_or_self _
  rw [run, bus_of_opcode rfl, Bus.decode, Bus.drive_of_not_touches rfl, halu]
  rfl

/-- A single cycle that is not a condition test leaves the control unit alone. -/
theorem ControlUnit.run_singleton (word : Word) (memory : Memory) {micro : MicroOp}
    (h : micro ≠ .testCondition) (control : ControlUnit) (staging : Staging) :
    ControlUnit.run word memory [micro] control staging =
      (((control.bus micro).drive word staging.registers memory).map staging.stage,
        control) := by
  have hobserve (out : AluOutput) : control.observe micro out = control := by
    cases micro <;> first | rfl | exact absurd rfl h
  rw [run]
  cases (control.bus micro).drive word staging.registers memory with
  | error fault => rfl
  | ok effects => simp only [run, hobserve, Except.map]

/-- **A micro-program amounts to its last cycle.** -/
theorem ControlUnit.run_microProgram (op : Opcode) (word : Word) (memory : Memory)
    (staging : Staging) :
    ControlUnit.run word memory op.microProgram ⟨some word, some op, false⟩ staging =
      (((op.lastBus (op.zeroLatch word staging.registers)).drive word staging.registers
          memory).map staging.stage,
        ⟨some word, some op, op.zeroLatch word staging.registers⟩) := by
  cases op
  case lrz | lrnz =>
    rw [Opcode.microProgram, run_testCondition, run_singleton _ _ (by decide),
      bus_of_opcode rfl]
    rfl
  all_goals
    rw [Opcode.microProgram, run_singleton _ _ (by decide), bus_of_opcode rfl]
    · rfl
    all_goals simp

/-! ### Staging and committing an action -/

@[simp] theorem RegisterFile.ip_advance (regs : RegisterFile) :
    regs.advance.ip = regs.ip + 2 := by
  simp [advance, ip]

@[simp] theorem LaneMask.both_union (m : LaneMask) : LaneMask.both.union m = .both := by
  cases m <;> rfl

/-- What is staged after the fetch: the advance of the instruction pointer. -/
theorem Staging.stage_fetch (regs : RegisterFile) (alu : AluOutput) (word : Word) :
    (Staging.start regs).stage ⟨alu, word, some ⟨.ip, regs.ip + 2, .both⟩, none⟩ =
      ⟨regs.advance, [⟨.ip, regs.ip + 2, .both⟩], none⟩ := by
  have hip : (regs.write .ip (regs.ip + 2) .both).get .ip = regs.ip + 2 := by simp
  simp only [stage, stageRegister, start, RegisterWrite.record, RegisterFile.advance, hip]

/-- **What is staged after the fetch and the action.** The instruction pointer is recorded
once, also if the action writes to it again. -/
theorem Staging.stage_action (regs : RegisterFile) (action : Action) (alu : AluOutput)
    (readData : Word) :
    (Staging.mk regs.advance [⟨.ip, regs.ip + 2, .both⟩] none).stage
        ⟨alu, readData, action.registerWrite, action.memoryWrite⟩ =
      { registers := action.registers regs.advance
        registerWrites :=
          ⟨.ip, (action.registers regs.advance).ip, .both⟩ ::
            (action.sideWrite regs.advance).toList
        memoryWrite := action.memoryWrite } := by
  cases action with
  | nothing => simp [stage, Action.registerWrite, Action.memoryWrite, Action.registers,
      Action.sideWrite]
  | setMemory w => simp [stage, Action.registerWrite, Action.memoryWrite, Action.registers,
      Action.sideWrite]
  | setRegister w =>
      obtain ⟨r, data, mask⟩ := w
      by_cases hr : r = .ip
      · subst hr
        simp [stage, stageRegister, RegisterWrite.record, Action.registerWrite,
          Action.memoryWrite, Action.registers, Action.sideWrite, RegisterFile.ip]
      · have hip : (regs.advance.write r data mask).ip = regs.ip + 2 := by
          rw [RegisterFile.ip, RegisterFile.get_write_of_ne (Ne.symm hr)]
          exact regs.ip_advance
        simp [stage, stageRegister, RegisterWrite.record, Action.registerWrite,
          Action.memoryWrite, Action.registers, Action.sideWrite, hr, Ne.symm hr, hip]

/-- **The commit of an action performs it.** It reports a change exactly if there is one. -/
theorem Memory.commit_action {memory : Memory} {action : Action}
    (h : ∀ w, action = .setMemory w → w.index < memory.capacity) :
    memory.commit action.memoryWrite =
      .ok ⟨action.memory memory, action.memory memory != memory, action.store memory⟩ := by
  cases action with
  | nothing => simp [commit, Action.memoryWrite, Action.memory, Action.store]
  | setRegister w => simp [commit, Action.memoryWrite, Action.memory, Action.store]
  | setMemory w =>
      have hlt : w.index < memory.capacity := h w rfl
      have hchanged : (memory.get w.index != Action.stored memory w) =
          (memory.put w.index (Action.stored memory w) != memory) := by
        rw [Bool.eq_iff_iff, bne_iff_ne, bne_iff_ne, Ne, Ne, put_eq_self_iff hlt, eq_comm]
      simp only [Action.memoryWrite, commit, read_of_lt hlt, write_of_lt hlt,
        LaneMask.merge_both]
      rw [← Action.stored, hchanged]
      rfl

end Smolisa
