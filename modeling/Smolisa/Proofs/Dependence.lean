import Smolisa.Proofs.FaultConditions
import Smolisa.Proofs.Iteration

/-!
# What an Instruction Depends On

The datapath reads two registers in every micro-cycle and passes them through the arithmetic unit,
whether the instruction has a use for them or not. In an immediate load the bits that select them
are part of the immediate byte, and a load or a store has a third register field that means
nothing. None of this may show: what an instruction does is to depend on the registers that it
names, on the word that it accesses, and on nothing else that a machine holds.

Let two machines differ in a set of registers and in a set of memory words. As long as the first
one retires instructions that keep away from both sets, the second one retires the same ones, an
observer sees the same, and the difference stays where it was. An instruction that keeps away from
a register does not set it either, since the register that it sets is one that it names.

## Main results

* `Opcode.action_congr` — **an action is read off the registers that are named**, and off the word
  that is accessed.
* `Machine.AgreesOutside.step` — machines that differ in what the pending instruction avoids take
  the same step, and differ in no more after it.
* `Machine.Avoids.keeps` — a step leaves alone what its instruction avoids.
* `Machine.execution_depends_on_named` — **execution depends only on what the instructions name**,
  over any number of steps.
-/

namespace Smolisa

/-! ### Registers and words outside a set -/

namespace RegisterFile

variable {a b : RegisterFile} {s : Set Register}

/-- A write made in two register files leaves them equal wherever they were. -/
theorem eqOn_write (h : Set.EqOn b.get a.get s) (r : Register) (data : Word) (mask : LaneMask) :
    Set.EqOn (b.write r data mask).get (a.write r data mask).get s := by
  intro q hq
  rw [get_write, get_write]
  split
  · next heq => rw [← heq, h hq]
  · exact h hq

/-- A write leaves every set of registers alone that does not have its own. -/
theorem eqOn_write_of_not_mem {r : Register} (h : r ∉ s) (data : Word) (mask : LaneMask) :
    Set.EqOn (a.write r data mask).get a.get s := by
  intro q hq
  exact get_write_of_ne (ne_of_mem_of_not_mem hq h) a data mask

/-- The advance of equal instruction pointers leaves two register files equal wherever they
were. -/
theorem eqOn_advance (h : Set.EqOn b.get a.get s) (hip : b.ip = a.ip) :
    Set.EqOn b.advance.get a.advance.get s := by
  rw [advance, advance, hip]
  exact eqOn_write h _ _ _

end RegisterFile

namespace Memory

variable {a b : Memory} {s : Set Nat}

/-- A replacement made in two memories of the same capacity leaves them equal wherever they
were. -/
theorem eqOn_put (h : Set.EqOn b.get a.get s) (hcap : b.capacity = a.capacity) (index : Nat)
    (w : Word) : Set.EqOn (b.put index w).get (a.put index w).get s := by
  intro i hi
  rw [get_put, get_put, hcap, h hi]

/-- A replacement leaves every set of words alone that does not have its own. -/
theorem eqOn_put_of_not_mem {index : Nat} (h : index ∉ s) (w : Word) :
    Set.EqOn (a.put index w).get a.get s := by
  intro i hi
  rw [get_put, if_neg fun hboth => ne_of_mem_of_not_mem hi h hboth.1]

end Memory

/-! ### The action of an instruction -/

namespace Opcode

/-- The registers that an instruction names. An immediate load has its byte in the place of the
second and the third register, and a load or a store has no third one. -/
def named (op : Opcode) (word : Word) : List Register :=
  match op with
  | li | liu => [word.r1]
  | lb | sb | lw | sw => [word.r1, word.r2]
  | lrz | lrnz | add | sub | and | or | xor | shl | shr | swb => [word.r1, word.r2, word.r3]

theorem r1_mem_named (op : Opcode) (word : Word) : word.r1 ∈ op.named word := by
  cases op <;> exact List.mem_cons_self

/-- The register that an instruction sets is one that it names. -/
theorem mem_named_of_target? {op : Opcode} {word : Word} {r : Register}
    (h : op.target? word = some r) : r ∈ op.named word := by
  cases op <;> cases h <;> simp [named]

section Congr

variable {op : Opcode} {word : Word} {regs regs' : RegisterFile}
  (hregs : ∀ r ∈ op.named word, regs'.get r = regs.get r)
include hregs

/-- The zero latch is read off the registers that are named. -/
theorem zeroLatch_congr : op.zeroLatch word regs' = op.zeroLatch word regs := by
  cases op
  case lrz | lrnz =>
    have hr3 : regs'.get word.r3 = regs.get word.r3 := hregs _ (by simp [named])
    rw [zeroLatch, zeroLatch, hr3]
  all_goals rfl

/-- **An action is read off the registers that are named**, and off the word that is accessed, if
there is one. -/
theorem action_congr {memory memory' : Memory}
    (hmemory : op.accessesMemory = true →
      memory'.get (Memory.wordIndex (regs.get word.r1)) =
        memory.get (Memory.wordIndex (regs.get word.r1))) :
    op.action word regs' memory' = op.action word regs memory := by
  cases op <;> simp only [named, List.forall_mem_cons] at hregs
  case li | liu => rfl
  case lb | sb | lw | sw =>
    obtain ⟨h1, h2, -⟩ := hregs
    simp only [action, h1, h2, hmemory rfl]
  all_goals
    obtain ⟨-, h2, h3, -⟩ := hregs
    simp only [action, h2, h3]

end Congr

end Opcode

namespace Action

variable {a b : RegisterFile} {s : Set Register}

/-- An action performed on two register files leaves them equal wherever they were. -/
theorem eqOn_registers (h : Set.EqOn b.get a.get s) (action : Action) :
    Set.EqOn (action.registers b).get (action.registers a).get s := by
  cases action with
  | nothing | setMemory _ => exact h
  | setRegister w => exact RegisterFile.eqOn_write h _ _ _

/-- An action leaves every set of registers alone that does not have the one it sets. -/
theorem eqOn_registers_of_not_mem {action : Action}
    (h : ∀ w, action = .setRegister w → w.register ∉ s) :
    Set.EqOn (action.registers a).get a.get s := by
  cases action with
  | nothing | setMemory _ => exact Set.eqOn_refl _ _
  | setRegister w => exact RegisterFile.eqOn_write_of_not_mem (h w rfl) _ _

/-- A register that is set in two register files which hold the same in it is reported alike. -/
theorem sideWrite_congr (h : Set.EqOn b.get a.get s) {action : Action}
    (hs : ∀ w, action = .setRegister w → w.register ∈ s) :
    action.sideWrite b = action.sideWrite a := by
  cases action with
  | nothing | setMemory _ => rfl
  | setRegister w =>
      have hdata := RegisterFile.eqOn_write h w.register w.data w.mask (hs w rfl)
      rw [sideWrite, sideWrite, hdata]

variable {c d : Memory} {t : Set Nat}

/-- A word that is stored to in two memories which hold the same in it is left the same. -/
theorem stored_congr (h : Set.EqOn d.get c.get t) {w : MemoryWrite} (hw : w.index ∈ t) :
    stored d w = stored c w := by
  rw [stored, stored, h hw]

/-- A store made in two memories is reported alike. -/
theorem store_congr (h : Set.EqOn d.get c.get t) {action : Action}
    (ht : ∀ w, action = .setMemory w → w.index ∈ t) : action.store d = action.store c := by
  cases action with
  | nothing | setRegister _ => rfl
  | setMemory w => rw [store, store, stored_congr h (ht w rfl)]

/-- An action performed on two memories of the same capacity leaves them equal wherever they
were. -/
theorem eqOn_memory (h : Set.EqOn d.get c.get t) (hcap : d.capacity = c.capacity)
    {action : Action} (ht : ∀ w, action = .setMemory w → w.index ∈ t) :
    Set.EqOn (action.memory d).get (action.memory c).get t := by
  cases action with
  | nothing | setRegister _ => exact h
  | setMemory w =>
      rw [memory, memory, stored_congr h (ht w rfl)]
      exact Memory.eqOn_put h hcap _ _

/-- An action leaves every set of words alone that does not have the one it stores to. -/
theorem eqOn_memory_of_not_mem {action : Action}
    (h : ∀ w, action = .setMemory w → w.index ∉ t) :
    Set.EqOn (action.memory c).get c.get t := by
  cases action with
  | nothing | setRegister _ => exact Set.eqOn_refl _ _
  | setMemory w => exact Memory.eqOn_put_of_not_mem (h w rfl) _

end Action

namespace Machine

/-- The machines are the same, but for some registers and some words of memory. -/
structure AgreesOutside (a b : Machine) (registers : Set Register) (words : Set Nat) :
    Prop where
  config : b.config = a.config
  registers : Set.EqOn b.registers.get a.registers.get registersᶜ
  capacity : b.memory.capacity = a.memory.capacity
  memory : Set.EqOn b.memory.get a.memory.get wordsᶜ
  control : b.control = a.control
  status : b.status = a.status
  stats : b.stats = a.stats

/-- The pending instruction keeps away from some registers and some words of memory: it is not
fetched from the words, names none of the registers, and accesses none of the words. -/
structure Avoids (m : Machine) (registers : Set Register) (words : Set Nat) : Prop where
  fetch : Memory.wordIndex m.ip ∉ words
  named : ∀ op, m.pending.opcode? m.config.profile = some op →
    ∀ r ∈ op.named m.pending, r ∉ registers
  data : ∀ op, m.pending.opcode? m.config.profile = some op → op.accessesMemory = true →
    m.dataIndex ∉ words

variable {a b : Machine} {registers : Set Register} {words : Set Nat}

/-! ### The pending instruction -/

/-- The pending instruction has one opcode at most, so it is enough to look at that one. -/
theorem avoids_of_decodes {op : Opcode} (decodes : a.pending.opcode? a.config.profile = some op)
    (fetch : Memory.wordIndex a.ip ∉ words) (named : ∀ r ∈ op.named a.pending, r ∉ registers)
    (data : op.accessesMemory = true → a.dataIndex ∉ words) : a.Avoids registers words where
  fetch := fetch
  named := by
    intro op' decodes'
    cases decodes.symm.trans decodes'
    exact named
  data := by
    intro op' decodes'
    cases decodes.symm.trans decodes'
    exact data

section Executes

variable {op : Opcode} (hexec : a.Executes op) (havoids : a.Avoids registers words)
include hexec havoids

/-- An instruction sets no register that it avoids. -/
theorem Avoids.register_not_mem {w : RegisterWrite} (hw : a.action op = .setRegister w) :
    w.register ∉ registers := by
  have htarget := Opcode.target?_of_action_eq hw
  exact havoids.named op hexec.decodes _ (Opcode.mem_named_of_target? htarget)

/-- An instruction stores to no word that it avoids. -/
theorem Avoids.index_not_mem {w : MemoryWrite} (hw : a.action op = .setMemory w) :
    w.index ∉ words := by
  obtain ⟨haccess, hindex⟩ := Opcode.action_eq_setMemory hw
  rw [hindex]
  exact havoids.data op hexec.decodes haccess

/-- The registers that an instruction avoids hold what they held. -/
theorem Avoids.eqOn_registers_retire (hip : .ip ∉ registers) :
    Set.EqOn (a.retire op).registers.get a.registers.get registers := by
  have hadvance : Set.EqOn a.registers.advance.get a.registers.get registers :=
    RegisterFile.eqOn_write_of_not_mem hip _ _
  have haction : Set.EqOn (a.retire op).registers.get a.registers.advance.get registers :=
    Action.eqOn_registers_of_not_mem fun _ => havoids.register_not_mem hexec
  exact haction.trans hadvance

/-- The words that an instruction avoids hold what they held. -/
theorem Avoids.eqOn_memory_retire :
    Set.EqOn (a.retire op).memory.get a.memory.get words :=
  Action.eqOn_memory_of_not_mem fun _ => havoids.index_not_mem hexec

end Executes

namespace AgreesOutside

section Pending

variable (h : a.AgreesOutside b registers words) (hip : .ip ∉ registers)
  (havoids : a.Avoids registers words)
include h hip

theorem ip_eq : b.ip = a.ip :=
  h.registers hip

theorem eqOn_advance : Set.EqOn b.registers.advance.get a.registers.advance.get registersᶜ :=
  RegisterFile.eqOn_advance h.registers (h.ip_eq hip)

include havoids

theorem pending_eq : b.pending = a.pending := by
  rw [pending, pending, h.ip_eq hip, h.memory havoids.fetch]

theorem decodes_eq :
    b.pending.opcode? b.config.profile = a.pending.opcode? a.config.profile := by
  rw [h.pending_eq hip havoids, h.config]

/-- The operands of the pending instruction are the same. -/
theorem get_advance_eq {op : Opcode} (decodes : a.pending.opcode? a.config.profile = some op) :
    ∀ r ∈ op.named a.pending, b.registers.advance.get r = a.registers.advance.get r := by
  intro r hr
  exact h.eqOn_advance hip (havoids.named op decodes r hr)

theorem dataIndex_eq {op : Opcode} (decodes : a.pending.opcode? a.config.profile = some op) :
    b.dataIndex = a.dataIndex := by
  have hr1 := h.get_advance_eq hip havoids decodes _ (op.r1_mem_named a.pending)
  rw [dataIndex, dataIndex, h.pending_eq hip havoids, hr1]

/-- What the pending instruction of the one machine avoids, that of the other one avoids. -/
theorem avoids : b.Avoids registers words where
  fetch := by
    rw [h.ip_eq hip]
    exact havoids.fetch
  named := by
    rw [h.decodes_eq hip havoids, h.pending_eq hip havoids]
    exact havoids.named
  data := by
    rw [h.decodes_eq hip havoids]
    intro op decodes
    rw [h.dataIndex_eq hip havoids decodes]
    exact havoids.data op decodes

section Executes

variable {op : Opcode} (hexec : a.Executes op)
include hexec

theorem action_eq : b.action op = a.action op := by
  have hregs := h.get_advance_eq hip havoids hexec.decodes
  rw [action, action, h.pending_eq hip havoids]
  refine Opcode.action_congr hregs fun haccess => ?_
  exact h.memory (havoids.data op hexec.decodes haccess)

theorem executes : b.Executes op where
  aligned := by
    rw [h.ip_eq hip]
    exact hexec.aligned
  fetch_lt := by
    rw [h.ip_eq hip, h.capacity]
    exact hexec.fetch_lt
  decodes := by
    rw [h.decodes_eq hip havoids]
    exact hexec.decodes
  data_lt := by
    rw [h.dataIndex_eq hip havoids hexec.decodes, h.capacity]
    exact hexec.data_lt

/-- After an instruction that avoids the difference the machines differ in no more. -/
theorem retire : (a.retire op).AgreesOutside (b.retire op) registers words where
  config := h.config
  registers := by
    rw [Machine.retire, Machine.retire, h.action_eq hip havoids hexec]
    exact Action.eqOn_registers (h.eqOn_advance hip) _
  capacity := by
    rw [Machine.retire, Machine.retire, Action.capacity_memory, Action.capacity_memory,
      h.capacity]
  memory := by
    rw [Machine.retire, Machine.retire, h.action_eq hip havoids hexec]
    exact Action.eqOn_memory h.memory h.capacity fun _ => havoids.index_not_mem hexec
  control := by
    have hzero := Opcode.zeroLatch_congr (h.get_advance_eq hip havoids hexec.decodes)
    rw [Machine.retire, Machine.retire, latched, latched, h.pending_eq hip havoids, hzero]
  status := h.status
  stats := by
    rw [Machine.retire, Machine.retire, h.stats]

/-- An observer sees the same of an instruction that avoids the difference. -/
theorem report_eq : b.report op = a.report op := by
  have hstore : (a.action op).store b.memory = (a.action op).store a.memory :=
    Action.store_congr h.memory fun _ => havoids.index_not_mem hexec
  have hside : (a.action op).sideWrite b.registers.advance =
      (a.action op).sideWrite a.registers.advance :=
    Action.sideWrite_congr (h.eqOn_advance hip) fun _ => havoids.register_not_mem hexec
  have hpointer := (h.retire hip havoids hexec).ip_eq hip
  rw [report, report, h.ip_eq hip, h.pending_eq hip havoids, h.action_eq hip havoids hexec,
    hstore, hside, hpointer]

end Executes

/-! ### Steps -/

/-- **Machines that differ in what the pending instruction avoids take the same step**, and differ
in no more after it. -/
theorem step (hretires : a.Retires) :
    b.step.outcome = a.step.outcome ∧ b.step.events = a.step.events ∧
      a.step.machine.AgreesOutside b.step.machine registers words := by
  obtain ⟨r, hr⟩ := hretires
  obtain ⟨hrun, op, hexec, hstep⟩ := step_of_outcome_ok hr
  rw [hstep, step_of_executes (h.status.trans hrun) (h.executes hip havoids hexec)]
  refine ⟨?_, h.report_eq hip havoids hexec, h.retire hip havoids hexec⟩
  rw [retirement, retirement, h.ip_eq hip, h.pending_eq hip havoids]

end Pending

/-- Machines differ in no more after any number of instructions that avoid the difference. -/
theorem steps (h : a.AgreesOutside b registers words) (hip : .ip ∉ registers) {n : Nat}
    (hretires : ∀ k < n, (a.steps k).Retires)
    (havoids : ∀ k < n, (a.steps k).Avoids registers words) :
    (a.steps n).AgreesOutside (b.steps n) registers words := by
  induction n with
  | zero => exact h
  | succ n ih =>
      have hn := ih (fun k hk => hretires k (Nat.lt_succ_of_lt hk))
        fun k hk => havoids k (Nat.lt_succ_of_lt hk)
      exact (hn.step hip (havoids n n.lt_succ_self) (hretires n n.lt_succ_self)).2.2

end AgreesOutside

/-- **A step leaves alone what its instruction avoids.** -/
theorem Avoids.keeps (havoids : a.Avoids registers words) (hretires : a.Retires)
    (hip : .ip ∉ registers) :
    Set.EqOn a.step.machine.registers.get a.registers.get registers ∧
      Set.EqOn a.step.machine.memory.get a.memory.get words := by
  obtain ⟨r, hr⟩ := hretires
  obtain ⟨-, op, hexec, hstep⟩ := step_of_outcome_ok hr
  rw [hstep]
  exact ⟨havoids.eqOn_registers_retire hexec hip, havoids.eqOn_memory_retire hexec⟩

/-- Instructions leave alone what they all avoid. -/
theorem eqOn_steps_of_avoids {m : Machine} (hip : .ip ∉ registers) {n : Nat}
    (hretires : ∀ k < n, (m.steps k).Retires)
    (havoids : ∀ k < n, (m.steps k).Avoids registers words) :
    Set.EqOn (m.steps n).registers.get m.registers.get registers ∧
      Set.EqOn (m.steps n).memory.get m.memory.get words := by
  induction n with
  | zero => exact ⟨Set.eqOn_refl _ _, Set.eqOn_refl _ _⟩
  | succ n ih =>
      obtain ⟨hregisters, hmemory⟩ := ih (fun k hk => hretires k (Nat.lt_succ_of_lt hk))
        fun k hk => havoids k (Nat.lt_succ_of_lt hk)
      obtain ⟨hregisters', hmemory'⟩ :=
        (havoids n n.lt_succ_self).keeps (hretires n n.lt_succ_self) hip
      exact ⟨hregisters'.trans hregisters, hmemory'.trans hmemory⟩

/-- Steps with the same events make the same trace. -/
theorem trace_congr {n : Nat}
    (h : ∀ k < n, (b.steps k).step.events = (a.steps k).step.events) :
    b.trace n = a.trace n := by
  induction n with
  | zero => rfl
  | succ n ih =>
      rw [trace, trace, ih fun k hk => h k (Nat.lt_succ_of_lt hk), h n n.lt_succ_self]

/-- **Execution depends only on what the instructions name.** Let two machines be the same but for
some registers, among them not the instruction pointer, and some words of memory. If the first one
retires `n` instructions, and none of them is fetched from one of the words, names one of the
registers or accesses one of the words, then the second one retires the same instructions, and an
observer sees the same of them. Afterwards the machines are again the same but for these registers
and words, and in each of the machines these hold what they held at the start. -/
theorem execution_depends_on_named (h : a.AgreesOutside b registers words)
    (hip : .ip ∉ registers) {n : Nat} (hretires : ∀ k < n, (a.steps k).Retires)
    (havoids : ∀ k < n, (a.steps k).Avoids registers words) :
    (∀ k < n, (b.steps k).Retires ∧
      (b.steps k).step.outcome = (a.steps k).step.outcome) ∧
    b.trace n = a.trace n ∧
    (a.steps n).AgreesOutside (b.steps n) registers words ∧
    (∀ r ∈ registers, (a.steps n).registers.get r = a.registers.get r ∧
      (b.steps n).registers.get r = b.registers.get r) ∧
    ∀ i ∈ words, (a.steps n).memory.get i = a.memory.get i ∧
      (b.steps n).memory.get i = b.memory.get i := by
  have hagrees : ∀ k ≤ n, (a.steps k).AgreesOutside (b.steps k) registers words :=
    fun k hk => h.steps hip (fun j hj => hretires j (hj.trans_le hk))
      fun j hj => havoids j (hj.trans_le hk)
  have hstep (k : Nat) (hk : k < n) :=
    (hagrees k hk.le).step hip (havoids k hk) (hretires k hk)
  have hretires' : ∀ k < n, (b.steps k).Retires := by
    intro k hk
    obtain ⟨r, hr⟩ := hretires k hk
    exact ⟨r, (hstep k hk).1.trans hr⟩
  have havoids' : ∀ k < n, (b.steps k).Avoids registers words :=
    fun k hk => (hagrees k hk.le).avoids hip (havoids k hk)
  obtain ⟨hregisters, hmemory⟩ := eqOn_steps_of_avoids hip hretires havoids
  obtain ⟨hregisters', hmemory'⟩ := eqOn_steps_of_avoids hip hretires' havoids'
  exact ⟨fun k hk => ⟨hretires' k hk, (hstep k hk).1⟩, trace_congr fun k hk => (hstep k hk).2.1,
    hagrees n le_rfl, fun r hr => ⟨hregisters hr, hregisters' hr⟩,
    fun i hi => ⟨hmemory hi, hmemory' hi⟩⟩

/-- An immediate byte of five has the bits of `g5` in the place of a second register, and the
store behind it has them in the place of a third one. What `g5` holds does not show. -/
theorem execution_depends_on_named_store :
    let memory : Memory :=
      ⟨#[Word.encodeImmediate .li .g1 5, Word.encodeRegister .sw .g1 .g2 .g5, 1, 0]⟩
    let a : Machine := { new ⟨4, .full⟩ with
      registers := RegisterFile.zero.write .g5 7 .both, memory := memory.put 3 8 }
    let b : Machine := { new ⟨4, .full⟩ with
      registers := RegisterFile.zero.write .g5 9 .both, memory := memory.put 3 6 }
    b.trace 2 = a.trace 2 ∧ (a.steps 2).AgreesOutside (b.steps 2) {.g5} {3} ∧
      (b.steps 2).registers.get .g5 = 9 ∧ (b.steps 2).memory.get 3 = 6 := by
  intro memory a b
  have hregisters : Set.EqOn b.registers.get a.registers.get {.g5}ᶜ := by
    intro r hr
    have hne : r ≠ .g5 := hr
    exact (RegisterFile.get_write_of_ne hne _ _ _).trans
      (RegisterFile.get_write_of_ne hne _ _ _).symm
  have hmemory : Set.EqOn b.memory.get a.memory.get {3}ᶜ := by
    have hput (w : Word) : Set.EqOn (memory.put 3 w).get memory.get {3}ᶜ :=
      Memory.eqOn_put_of_not_mem (by decide) w
    exact (hput 6).trans (hput 8).symm
  have hretires : ∀ k < 2, (a.steps k).Retires := by
    intro k hk
    interval_cases k
    · exact ⟨⟨0, Word.encodeImmediate .li .g1 5, 2⟩, by decide⟩
    · exact ⟨⟨2, Word.encodeRegister .sw .g1 .g2 .g5, 4⟩, by decide⟩
  have havoids : ∀ k < 2, (a.steps k).Avoids {.g5} {3} := by
    intro k hk
    interval_cases k
    · have hload : (a.steps 0).pending.opcode? (a.steps 0).config.profile = some .li := by decide
      exact avoids_of_decodes hload (by decide) (by decide) (by decide)
    · have hstore : (a.steps 1).pending.opcode? (a.steps 1).config.profile = some .sw := by decide
      exact avoids_of_decodes hstore (by decide) (by decide) (by decide)
  have hab : a.AgreesOutside b {.g5} {3} := ⟨rfl, hregisters, rfl, hmemory, rfl, rfl, rfl⟩
  obtain ⟨-, htrace, hagrees, hkeptRegisters, hkeptWords⟩ :=
    execution_depends_on_named hab (by decide) hretires havoids
  exact ⟨htrace, hagrees, (hkeptRegisters .g5 rfl).2, (hkeptWords 3 rfl).2⟩

end Machine

end Smolisa
