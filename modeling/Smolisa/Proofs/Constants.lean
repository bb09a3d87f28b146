import Smolisa.Proofs.Alignment
import Smolisa.Proofs.Assembly
import Smolisa.Proofs.Interpreter
import Smolisa.Proofs.Iteration
import Smolisa.Proofs.LastWriter

/-!
# Programs that Load Constants

No instruction loads a whole word. A constant is put into a register in two halves, each of them by
an immediate load that leaves the other half alone, and so it does not matter which one comes first.
A program may load any number of constants like this, some of them into the same register, and in
the end each register holds the last one that was loaded into it.

The statements are about programs of single byte loads first, since these are what the machine
executes. One of them performs its masked write and nothing else. So after any number of them the
registers are what the writes make of them, one after the other, and the lanes of the registers are
those of the last writers.

## Main results

* `Machine.Loaded.step` — one more byte load.
* `Machine.Ready.loaded` — **a program of byte loads performs its writes.**
* `Constant.get_writeAll_loads` — the two halves of a constant set its register, in either order.
* `Machine.constants_are_loaded` — **programs that load constants are correct**, at any length that
  the addresses of sixteen bits allow.
-/

namespace Smolisa

/-! ### Byte loads -/

/-- The load of a byte into a lane of a register other than the instruction pointer. -/
structure ByteLoad where
  register : Register
  lane : Lane
  byte : UInt8
  register_ne_ip : register ≠ .ip

namespace ByteLoad

/-- The opcode that loads the lane. -/
def opcode (l : ByteLoad) : Opcode :=
  match l.lane with
  | .low => .li
  | .high => .liu

/-- The word of the instruction. -/
def word (l : ByteLoad) : Word :=
  .encodeImmediate l.opcode l.register l.byte

/-- The write that the instruction performs. -/
def write (l : ByteLoad) : RegisterWrite :=
  match l.lane with
  | .low => ⟨l.register, l.byte.toUInt16, .low⟩
  | .high => ⟨l.register, l.byte.toUInt16 <<< 8, .high⟩

@[simp] theorem register_write (l : ByteLoad) : l.write.register = l.register := by
  rw [write]
  split <;> rfl

/-- The instruction does nothing but its write. -/
theorem action_word (l : ByteLoad) (regs : RegisterFile) (memory : Memory) :
    l.opcode.action l.word regs memory = .setRegister l.write := by
  obtain ⟨r, lane, byte, -⟩ := l
  cases lane <;> simp [opcode, word, write, Opcode.action]

theorem target?_word (l : ByteLoad) : l.opcode.target? l.word = some l.register := by
  rw [Opcode.target?_of_action_eq (l.action_word .zero (.zero 0)), register_write]

theorem accessesMemory_opcode (l : ByteLoad) : l.opcode.accessesMemory = false := by
  rw [opcode]
  split <;> rfl

theorem cycles_opcode (l : ByteLoad) : l.opcode.cycles = 2 := by
  rw [opcode]
  split <;> rfl

/-- The byte goes into its own lane and into no other one. -/
theorem byte?_write (l : ByteLoad) (r : Register) (lane : Lane) :
    l.write.byte? r lane = if l.register = r ∧ l.lane = lane then some l.byte else none := by
  have hlow (b : UInt8) : Word.byte b.toUInt16 .low = b := UInt8.toUInt8_toUInt16 b
  obtain ⟨q, own, byte, -⟩ := l
  by_cases hq : q = r <;> cases own <;> cases lane <;>
    simp [write, RegisterWrite.byte?, LaneMask.byte?, LaneMask.covers, hq, hlow,
      Word.byte_high_shiftLeft]

end ByteLoad

namespace Machine

/-- The machine is about to execute a program of byte loads, which starts at the first word of its
memory. -/
structure Ready (m : Machine) (loads : List ByteLoad) : Prop where
  running : m.status = .running
  full : m.config.profile = .full
  ip_eq : m.ip = 0
  get_eq : ∀ i l, loads[i]? = some l → m.memory.get i = l.word
  le_capacity : loads.length ≤ m.memory.capacity
  le_addresses : loads.length ≤ 32768

/-- What a program of byte loads has made of a machine. -/
structure Loaded (m : Machine) (loads : List ByteLoad) (m' : Machine) : Prop where
  running : m'.status = .running
  config_eq : m'.config = m.config
  memory_eq : m'.memory = m.memory
  ip_eq : m'.ip = UInt16.ofNat (2 * loads.length)
  registers_eq : Set.EqOn m'.registers.get
    (m.registers.writeAll (loads.map ByteLoad.write)).get {.ip}ᶜ
  stats_eq : m'.stats =
    ⟨m.stats.instructions + loads.length, m.stats.cycles + 2 * loads.length⟩

variable {m m' : Machine} {front : List ByteLoad} {l : ByteLoad}

/-- A machine that is about to execute a program is about to execute the front of it. -/
theorem Ready.of_append (h : m.Ready (front ++ [l])) : m.Ready front := by
  have hlength : (front ++ [l]).length = front.length + 1 := List.length_append
  have hcapacity := h.le_capacity
  have haddresses := h.le_addresses
  refine ⟨h.running, h.full, h.ip_eq, fun i k hk => h.get_eq i k ?_, by omega, by omega⟩
  obtain ⟨hi, -⟩ := List.getElem?_eq_some_iff.1 hk
  rw [List.getElem?_append_left hi, hk]

/-- Behind the front of a program, the next byte load is pending, and nothing is in its way. -/
theorem Loaded.executes (h : m.Loaded front m') (ready : m.Ready (front ++ [l])) :
    m'.pending = l.word ∧ m'.Executes l.opcode := by
  have hlength : (front ++ [l]).length = front.length + 1 := List.length_append
  have hcapacity := ready.le_capacity
  have haddresses := ready.le_addresses
  have hip : m'.ip.toNat = 2 * front.length := by
    rw [h.ip_eq]
    exact UInt16.toNat_ofNat_of_lt' (show 2 * front.length < 65536 by omega)
  have hindex : Memory.wordIndex m'.ip = front.length := by
    rw [Memory.wordIndex_eq]
    omega
  have hpending : m'.pending = l.word := by
    rw [pending, hindex, h.memory_eq]
    exact ready.get_eq _ _ List.getElem?_concat_length
  refine ⟨hpending, by omega, ?_, ?_, fun haccess => ?_⟩
  · rw [hindex, h.memory_eq]
    omega
  · rw [hpending, h.config_eq, ready.full]
    exact Word.opcode?_encodeImmediate _ _ _
  · rw [l.accessesMemory_opcode] at haccess
    cases haccess

/-- **One more byte load.** It retires, and performs its write. -/
theorem Loaded.step (h : m.Loaded front m') (ready : m.Ready (front ++ [l])) :
    m'.Retires ∧ m.Loaded (front ++ [l]) m'.step.machine := by
  obtain ⟨hpending, hexec⟩ := h.executes ready
  have hstep := step_of_executes h.running hexec
  have haction : m'.action l.opcode = .setRegister l.write := by
    rw [action, hpending, l.action_word]
  have hlength : (front ++ [l]).length = front.length + 1 := List.length_append
  rw [Retires, hstep]
  refine ⟨⟨_, rfl⟩, h.running, h.config_eq, ?_, ?_, ?_, ?_⟩
  · rw [retirement, retire, haction]
    exact h.memory_eq
  · have htarget : l.opcode.target? m'.pending ≠ some .ip := by
      rw [hpending, l.target?_word]
      exact fun heq => l.register_ne_ip (Option.some.inj heq)
    rw [retirement, ip_retire_of_target?_ne htarget, h.ip_eq, hlength, Nat.mul_succ,
      UInt16.ofNat_add]
    rfl
  · -- The advance of the pointer is not seen, and the write is the next one on both sides.
    have hadvance : Set.EqOn m'.registers.advance.get m'.registers.get {.ip}ᶜ :=
      RegisterFile.eqOn_write_of_not_mem
        (Set.notMem_compl_iff.2 (Set.mem_singleton Register.ip)) _ _
    rw [retirement, retire, haction, List.map_append, RegisterFile.writeAll, List.foldl_append]
    exact RegisterFile.eqOn_write (hadvance.trans h.registers_eq) _ _ _
  · rw [retirement, retire, h.stats_eq, Stats.retire, l.cycles_opcode, hlength]
    rfl

/-- **A program of byte loads performs its writes**, and each of its instructions retires. -/
theorem Ready.loaded {loads : List ByteLoad} (h : m.Ready loads) :
    m.GoesOn .steps loads.length ∧ m.Loaded loads (m.steps loads.length) := by
  induction loads using List.reverseRecOn with
  | nil => exact ⟨goesOn_zero, h.running, rfl, rfl, h.ip_eq, fun _ _ => rfl, rfl⟩
  | append_singleton front l ih =>
      obtain ⟨hgoes, hloaded⟩ := ih h.of_append
      obtain ⟨hretires, hnext⟩ := hloaded.step h
      have hlength : (front ++ [l]).length = front.length + 1 := List.length_append
      rw [hlength]
      exact ⟨goesOn_succ_iff.2 ⟨hgoes, hretires, fun hloop => Boundary.noConfusion hloop⟩, hnext⟩

/-- A run over a program of byte loads takes two cycles for each of them. -/
theorem Ready.run_eq {loads : List ByteLoad} (h : m.Ready loads) :
    m.run loads.length = (.ok ⟨loads.length, 2 * loads.length, true⟩, m.steps loads.length) := by
  obtain ⟨hgoes, hloaded⟩ := h.loaded
  have hrun : m.run loads.length = (.ok ⟨loads.length, m.cyclesOf loads.length, true⟩, _) :=
    (RunsTo.limit hgoes).runUntil_eq
  have hstats := (stats_of_runUntil_ok hrun).symm.trans hloaded.stats_eq
  have hcycles : m.cyclesOf loads.length = 2 * loads.length :=
    Nat.add_left_cancel (congrArg Stats.cycles hstats)
  rw [hrun, hcycles]

end Machine

/-! ### Constants -/

/-- A constant that is loaded into a register other than the instruction pointer, and the order in
which its halves are loaded. -/
structure Constant where
  register : Register
  value : Word
  highFirst : Bool
  register_ne_ip : register ≠ .ip

namespace Constant

/-- The two instructions that load a constant. -/
def words (c : Constant) : List Word :=
  let low := Word.encodeImmediate .li c.register (c.value.byte .low)
  let high := Word.encodeImmediate .liu c.register (c.value.byte .high)
  if c.highFirst then [high, low] else [low, high]

/-- The value that a constant gives to a register, if it is loaded into it. -/
def value? (r : Register) (c : Constant) : Option Word :=
  if c.register = r then some c.value else none

/-- The load of one half of a constant. -/
def half (c : Constant) (lane : Lane) : ByteLoad :=
  ⟨c.register, lane, c.value.byte lane, c.register_ne_ip⟩

/-- The loads of both halves of a constant, in their order. -/
def loads (c : Constant) : List ByteLoad :=
  if c.highFirst then [c.half .high, c.half .low] else [c.half .low, c.half .high]

/-- The program that loads a list of constants. -/
def image (constants : List Constant) : Array Word :=
  (constants.flatMap words).toArray

theorem map_word_loads (c : Constant) : c.loads.map ByteLoad.word = c.words := by
  rw [loads, words]
  split <;> rfl

theorem length_loads (c : Constant) : c.loads.length = 2 := by
  rw [loads]
  split <;> rfl

/-- **The two halves of a constant set its register**, in either order. -/
theorem get_writeAll_loads (c : Constant) (regs : RegisterFile) (r : Register) :
    (regs.writeAll (c.loads.map ByteLoad.write)).get r = (c.value? r).getD (regs.get r) := by
  refine Word.byte_ext fun lane => ?_
  rw [RegisterFile.byte_writeAll, value?]
  by_cases hr : c.register = r <;> cases hfirst : c.highFirst <;> cases lane <;>
    simp [loads, half, hfirst, latest, ByteLoad.byte?_write, hr]

end Constant

section Constants

variable {constants : List Constant}

/-- A program that loads constants leaves in each register the last one for it. -/
theorem RegisterFile.get_writeAll_constants (regs : RegisterFile) (r : Register) :
    (regs.writeAll ((constants.flatMap Constant.loads).map ByteLoad.write)).get r =
      latest (Constant.value? r) constants (regs.get r) := by
  rw [writeAll, List.map_flatMap, List.foldl_flatMap]
  exact foldl_eq_latest (fun _ => True) (fun regs : RegisterFile => regs.get r)
    (fun _ _ h => h) (fun regs c _ => c.get_writeAll_loads regs r) trivial constants

/-- There are two byte loads for each constant. -/
theorem Constant.length_flatMap_loads (constants : List Constant) :
    (constants.flatMap Constant.loads).length = 2 * constants.length := by
  rw [List.length_flatMap, List.map_congr_left fun c _ => c.length_loads]
  simp [Nat.mul_comm]

/-- The program that loads constants consists of the words of their byte loads. -/
theorem Constant.image_eq :
    image constants = ((constants.flatMap Constant.loads).map ByteLoad.word).toArray := by
  rw [image, List.map_flatMap]
  simp only [map_word_loads]

namespace Machine

/-- A machine whose memory begins with the program is about to execute it. -/
theorem ready_of_constants {config : Config} (full : config.profile = .full)
    (hlength : constants.length ≤ 16384) (rest : Array Word) :
    Ready { new config with memory := ⟨Constant.image constants ++ rest⟩ }
      (constants.flatMap Constant.loads) where
  running := rfl
  full := full
  ip_eq := RegisterFile.get_zero .ip
  get_eq := by
    intro i l hl
    obtain ⟨hi, rfl⟩ := List.getElem?_eq_some_iff.1 hl
    rw [Constant.image_eq, Memory.get_append (by simpa using hi)]
    simp
  le_capacity := by
    rw [Constant.image_eq]
    simp [Memory.capacity]
  le_addresses := by
    rw [Constant.length_flatMap_loads]
    omega

end Machine

end Constants

namespace Machine

/-- **Programs that load constants are correct.** Take any list of constants, each with a register
other than the instruction pointer and with the order of its two halves, and a machine of the full
profile that has room for two words for each of them. Then the program is accepted, and it runs to
its end, with two cycles for each word. Afterwards a register holds the last constant that was
loaded into it, and zero if there was none. The instruction pointer has come behind the program,
which is the address zero again if it fills the address space. Memory still holds the program, and
zeros behind it. -/
theorem constants_are_loaded {config : Config} {constants : List Constant}
    (full : config.profile = .full) (hlength : constants.length ≤ 16384)
    (hfits : 2 * constants.length ≤ config.memoryWords) :
    ∃ m m', ofImage config (Constant.image constants) = .ok m ∧
      m.run (2 * constants.length) =
        (.ok ⟨2 * constants.length, 4 * constants.length, true⟩, m') ∧
      (∀ r, r ≠ .ip → m'.registers.get r = latest (Constant.value? r) constants 0) ∧
      m'.ip.toNat = 4 * constants.length % 65536 ∧
      m'.memory.words = Constant.image constants ++
        Array.replicate (config.memoryWords - 2 * constants.length) 0 ∧
      m'.stats = ⟨2 * constants.length, 4 * constants.length⟩ := by
  have hloads := Constant.length_flatMap_loads constants
  have hsize : (Constant.image constants).size = 2 * constants.length := by
    rw [Constant.image_eq, List.size_toArray, List.length_map, hloads]
  have hbuilt := ofImage_of_le (hsize.trans_le hfits)
  rw [hsize] at hbuilt
  have hready := ready_of_constants full hlength
    (Array.replicate (config.memoryWords - 2 * constants.length) 0)
  have hrun := hready.run_eq
  obtain ⟨-, hloaded⟩ := hready.loaded
  have hcycles : 2 * (2 * constants.length) = 4 * constants.length := by omega
  rw [hloads, hcycles] at hrun
  rw [hloads] at hloaded
  refine ⟨_, _, hbuilt, hrun, fun r hr => ?_, ?_, congrArg Memory.words hloaded.memory_eq, ?_⟩
  · rw [hloaded.registers_eq hr, RegisterFile.get_writeAll_constants]
    exact congrArg (latest _ constants) (RegisterFile.get_zero r)
  · rw [hloaded.ip_eq, hloads, hcycles, UInt16.toNat_ofNat']
  · rw [hloaded.stats_eq, hloads, hcycles]
    exact congrArg₂ Stats.mk (Nat.zero_add _) (Nat.zero_add _)

/-- Three constants, of which the first and the last are for the same register, in both orders of
their halves. -/
theorem constants_are_loaded_twice :
    let constants : List Constant := [⟨.g0, 0x1234, false, by decide⟩,
      ⟨.g15, 0xBEEF, true, by decide⟩, ⟨.g0, 0x00FF, true, by decide⟩]
    let config : Config := ⟨7, .full⟩
    config.profile = .full ∧ constants.length ≤ 16384 ∧
      2 * constants.length ≤ config.memoryWords ∧
      ∃ m m', ofImage config (Constant.image constants) = .ok m ∧
        m.run 6 = (.ok ⟨6, 12, true⟩, m') ∧ m'.registers.get .g0 = 0x00FF ∧
        m'.registers.get .g15 = 0xBEEF ∧ m'.registers.get .g1 = 0 ∧ m'.ip.toNat = 12 := by
  intro constants config
  have hlength : constants.length ≤ 16384 := by decide
  have hfits : 2 * constants.length ≤ config.memoryWords := by decide
  obtain ⟨m, m', hbuilt, hrun, hregisters, hip, -, -⟩ :=
    constants_are_loaded (show config.profile = .full from rfl) hlength hfits
  exact ⟨rfl, hlength, hfits, m, m', hbuilt, hrun, hregisters .g0 (by decide),
    hregisters .g15 (by decide), hregisters .g1 (by decide), hip⟩

end Machine

end Smolisa
