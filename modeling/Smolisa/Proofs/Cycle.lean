import Smolisa.Proofs.Commit
import Smolisa.Proofs.Interpreter
import Smolisa.Proofs.LastWriter

/-!
# One Cycle with Any Bus

The control unit puts out few of the buses that there are. The datapath does not rely on that: it is
safe with every bus, whatever the word, the registers and the memory are. Several parts of it work
out pieces of a write on their own, the selectors its data, the bus its mask and its enable signal,
and the load from memory is what checks the index of a store. These pieces fit together for every
combination of the signals. A cycle fails exactly if it accesses a word that does not exist.
Otherwise the writes that it proposes can be merged into registers and memory without another check,
and nothing changes there that the signals did not select.

## Main results

* `Bus.drive_eq_error_iff` — when a cycle fails, and with which fault.
* `Bus.byte_resolve_result` — the data of a register write stays within the lanes of its mask.
* `Effects.exists_mergeMemory` and `Effects.reaches_of_mergeRegisters` — what merging can change.
* `Bus.drive_is_safe` — **one cycle is safe for every possible bus.**
-/

namespace Smolisa

/-- Data without a bit outside of some lanes has only zeros in the other lanes. -/
theorem LaneMask.and_compl_lanes_eq_zero_iff {mask : LaneMask} {data : Word} :
    data &&& ~~~mask.lanes = 0 ↔ ∀ lane, mask.covers lane = false → data.byte lane = 0 := by
  have hzero (lane : Lane) : Word.byte 0 lane = 0 := by
    cases lane <;> rfl
  have hbyte (lane : Lane) : (data &&& ~~~mask.lanes).byte lane =
      if mask.covers lane then 0 else data.byte lane := by
    rw [Word.byte_and, byte_compl_lanes]
    split
    · exact UInt8.and_zero
    · exact UInt8.and_neg_one
  constructor
  · intro h lane hlane
    have hboth := hbyte lane
    rw [h, hzero, hlane] at hboth
    exact hboth.symm
  · intro h
    refine Word.byte_ext fun lane => ?_
    rw [hbyte, hzero]
    split
    · rfl
    · next hlane => exact h lane (Bool.not_eq_true _ ▸ hlane)

/-! ### Merging the writes of a cycle -/

namespace Effects

/-- The registers with the register write of a cycle merged into them. -/
def mergeRegisters (e : Effects) (regs : RegisterFile) : RegisterFile :=
  match e.registerWrite with
  | some w => regs.write w.register w.data w.mask
  | none => regs

/-- The memory with the memory write of a cycle merged into it. -/
def mergeMemory (e : Effects) (memory : Memory) : Except Fault Memory :=
  match e.memoryWrite with
  | some w => memory.write w.index w.data w.mask
  | none => .ok memory

variable {e : Effects}

/-- Merging changes no register byte that the write of the cycle does not reach. -/
theorem reaches_of_mergeRegisters {regs : RegisterFile} {r : Register} {lane : Lane}
    (h : ((e.mergeRegisters regs).get r).byte lane ≠ (regs.get r).byte lane) :
    ∃ w, e.registerWrite = some w ∧ w.Reaches r lane := by
  rw [mergeRegisters] at h
  cases hw : e.registerWrite with
  | none =>
      rw [hw] at h
      exact absurd rfl h
  | some w =>
      rw [hw] at h
      refine ⟨w, rfl, ?_⟩
      by_contra hout
      rw [RegisterFile.byte_write, RegisterWrite.byte?_eq_none_iff.2 hout] at h
      exact h rfl

/-- Merging a write with an index below the capacity succeeds, and changes no byte of memory that
the write does not reach. -/
theorem exists_mergeMemory {memory : Memory}
    (h : ∀ w, e.memoryWrite = some w → w.index < memory.capacity) :
    ∃ memory', e.mergeMemory memory = .ok memory' ∧ memory'.capacity = memory.capacity ∧
      ∀ i lane, (memory'.get i).byte lane ≠ (memory.get i).byte lane →
        ∃ w, e.memoryWrite = some w ∧ w.Reaches i lane := by
  rw [mergeMemory]
  cases hw : e.memoryWrite with
  | none => exact ⟨memory, rfl, rfl, fun _ _ hne => absurd rfl hne⟩
  | some w =>
      refine ⟨_, Memory.write_of_lt (h w hw) w.data w.mask, Memory.capacity_put _ _ _,
        fun i lane hne => ⟨w, rfl, ?_⟩⟩
      rw [Memory.get_put] at hne
      split at hne
      · next hi =>
          obtain ⟨rfl, -⟩ := hi
          refine ⟨rfl, ?_⟩
          by_contra hout
          rw [LaneMask.byte_merge, if_neg hout] at hne
          exact hne rfl
      · exact absurd rfl hne

end Effects

namespace Bus

variable {bus : Bus} {word : Word} {regs : RegisterFile} {memory : Memory} {e : Effects}

/-! ### When a cycle fails -/

/-- **A cycle fails exactly if it accesses a word that does not exist**, and reports its index. -/
theorem drive_eq_error_iff {fault : Fault} :
    bus.drive word regs memory = .error fault ↔
      bus.touchesMemory = true ∧ memory.capacity ≤ bus.memoryIndex word regs ∧
        fault = .outOfBoundsAddress (bus.memoryIndex word regs) memory.capacity := by
  cases htouches : bus.touchesMemory with
  | false =>
      rw [drive_of_not_touches htouches]
      simp
  | true =>
      rw [drive_of_touches htouches]
      split
      · next hle => simp [hle, eq_comm]
      · next hlt => simp [hlt]

/-- A cycle that accesses memory, and does not fail, loads the word that is there. -/
theorem read_of_drive (h : bus.drive word regs memory = .ok e)
    (htouches : bus.touchesMemory = true) :
    memory.read (bus.memoryIndex word regs) = .ok e.readData := by
  obtain ⟨readData, hload, rfl⟩ := drive_eq_ok_iff.1 h
  rwa [loadData_of_touches htouches] at hload

/-- A cycle that does not access memory loads zero. -/
theorem readData_of_drive (h : bus.drive word regs memory = .ok e)
    (htouches : bus.touchesMemory = false) : e.readData = 0 := by
  obtain ⟨readData, hload, rfl⟩ := drive_eq_ok_iff.1 h
  rw [loadData_of_not_touches htouches] at hload
  exact (Except.ok.inj hload).symm

/-- A cycle that accesses memory, and does not fail, has its index below the capacity. -/
theorem memoryIndex_lt_of_drive (h : bus.drive word regs memory = .ok e)
    (htouches : bus.touchesMemory = true) : bus.memoryIndex word regs < memory.capacity := by
  by_contra hle
  have hread := read_of_drive h htouches
  rw [Memory.read_of_le (Nat.not_lt.1 hle)] at hread
  cases hread

/-! ### The writes of a cycle -/

/-- **The data of a register write stays within the lanes of its mask**, whichever source is
selected. -/
theorem byte_resolve_result (hwrites : bus.writesRegister = true) (imm8 : UInt8)
    (readData alu : Word) {lane : Lane} (hlane : bus.registerMask.covers lane = false) :
    (bus.result.resolve imm8 readData alu).byte lane = 0 := by
  have hhigh : Word.byte imm8.toUInt16 .high = 0 := by
    have himm8 := imm8.toNat_lt
    rw [← UInt8.toNat_inj, Word.toNat_byte_high, UInt8.toNat_toUInt16]
    exact Nat.div_eq_of_lt himm8
  have hlow : Word.byte (imm8.toUInt16 <<< 8) .low = 0 := by
    rw [← UInt8.toNat_inj, Word.toNat_byte_low, UInt16.toNat_shiftLeft, Nat.shiftLeft_eq]
    change imm8.toUInt16.toNat * 256 % 65536 % 256 = 0
    omega
  have hbyte : (readData &&& 0x00FF).byte .high = 0 := by
    rw [Word.byte_and]
    exact UInt8.and_zero
  rw [registerMask, hwrites] at hlane
  cases hresult : bus.result <;> rw [hresult] at hlane <;> cases lane <;>
    first | assumption | cases hlane

/-- A register write goes to the selected register, it has a mask, and its data stays within the
mask. -/
theorem registerWrite_of_drive (h : bus.drive word regs memory = .ok e) {w : RegisterWrite}
    (hw : e.registerWrite = some w) :
    w.register = bus.target.resolve word ∧ w.mask ≠ .none ∧ w.data &&& ~~~w.mask.lanes = 0 := by
  have hwrites := (isSome_registerWrite_of_drive h).1 (Option.isSome_of_eq_some hw)
  obtain ⟨readData, -, rfl⟩ := drive_eq_ok_iff.1 h
  simp only [registerWrite, hwrites, if_true, Option.some.injEq] at hw
  subst hw
  refine ⟨rfl, fun hmask => ?_, LaneMask.and_compl_lanes_eq_zero_iff.2 fun lane hlane => ?_⟩
  · cases hwrites.symm.trans (registerMask_eq_none_iff.1 hmask)
  · exact byte_resolve_result hwrites _ _ _ hlane

/-- A memory write goes to the word that the cycle accesses, which exists, and reaches the low byte
at least. -/
theorem memoryWrite_of_drive (h : bus.drive word regs memory = .ok e) {w : MemoryWrite}
    (hw : e.memoryWrite = some w) :
    w.index = bus.memoryIndex word regs ∧ w.index < memory.capacity ∧
      (w.mask = .low ∨ w.mask = .both) := by
  have hwrites := (isSome_memoryWrite_of_drive h).1 (Option.isSome_of_eq_some hw)
  have htouches : bus.touchesMemory = true := by
    rw [touchesMemory, hwrites, Bool.or_true]
  have hlt := memoryIndex_lt_of_drive h htouches
  obtain ⟨readData, -, rfl⟩ := drive_eq_ok_iff.1 h
  simp only [memoryWrite, hwrites, if_true, Option.some.injEq] at hw
  subst hw
  refine ⟨rfl, hlt, ?_⟩
  simp only [memoryMask, hwrites]
  cases bus.storesByte
  · exact .inr rfl
  · exact .inl rfl

/-- The index of the word that a cycle accesses, read off the address that it selects. -/
theorem memoryIndex_eq (bus : Bus) (word : Word) (regs : RegisterFile) :
    bus.memoryIndex word regs =
      (if bus.address = .ip then regs.ip else regs.get (bus.source1.resolve word)).toNat / 2 := by
  rw [memoryIndex, Memory.wordIndex_eq]
  cases bus.address <;> rfl

/-- **One cycle is safe for every possible bus**, and for every word, register file and memory. Let
the address be the instruction pointer or the first source register, as the bus selects. The cycle
fails exactly if the bus reads or writes memory and there is no word at the address, and the fault
names the index of that word. Otherwise:

* it has loaded the word at the address, or zero if the bus neither reads nor writes memory;
* it proposes a register write exactly if the bus enables it, to the register selected, with a mask
  that is not empty and with no bit of the data outside of the lanes of the mask;
* it proposes a memory write exactly if the bus enables it, at the address, which lies in memory,
  and of the low byte or the whole word;
* so the writes can be merged into registers and memory, and this changes at most the bytes that
  they reach. -/
theorem drive_is_safe (bus : Bus) (word : Word) (regs : RegisterFile) (memory : Memory) :
    let addr := if bus.address = .ip then regs.ip else regs.get (bus.source1.resolve word)
    let index := addr.toNat / 2
    let accesses := bus.readsMemory = true ∨ bus.writesMemory = true
    (∀ fault, bus.drive word regs memory = .error fault ↔
      accesses ∧ memory.capacity ≤ index ∧
        fault = .outOfBoundsAddress index memory.capacity) ∧
    ∀ e, bus.drive word regs memory = .ok e →
      (accesses → memory.read index = .ok e.readData) ∧
      (¬ accesses → e.readData = 0) ∧
      (e.registerWrite.isSome = true ↔ bus.writesRegister = true) ∧
      (∀ w, e.registerWrite = some w → w.register = bus.target.resolve word ∧ w.mask ≠ .none ∧
        w.data &&& ~~~w.mask.lanes = 0) ∧
      (e.memoryWrite.isSome = true ↔ bus.writesMemory = true) ∧
      (∀ w, e.memoryWrite = some w → w.index = index ∧ w.index < memory.capacity ∧
        (w.mask = .low ∨ w.mask = .both)) ∧
      (∀ r lane, ((e.mergeRegisters regs).get r).byte lane ≠ (regs.get r).byte lane →
        ∃ w, e.registerWrite = some w ∧ w.Reaches r lane) ∧
      ∃ memory', e.mergeMemory memory = .ok memory' ∧ memory'.capacity = memory.capacity ∧
        ∀ i lane, (memory'.get i).byte lane ≠ (memory.get i).byte lane →
          ∃ w, e.memoryWrite = some w ∧ w.Reaches i lane := by
  intro addr index accesses
  have hindex : bus.memoryIndex word regs = index := bus.memoryIndex_eq word regs
  have haccesses : bus.touchesMemory = true ↔ accesses := Bool.or_eq_true_iff
  rw [← hindex, ← haccesses]
  refine ⟨fun _ => drive_eq_error_iff, fun e h => ?_⟩
  exact ⟨read_of_drive h, fun hno => readData_of_drive h (Bool.eq_false_of_not_eq_true hno),
    isSome_registerWrite_of_drive h, fun _ hw => registerWrite_of_drive h hw,
    isSome_memoryWrite_of_drive h, fun _ hw => memoryWrite_of_drive h hw,
    fun _ _ => Effects.reaches_of_mergeRegisters,
    Effects.exists_mergeMemory fun _ hw => (memoryWrite_of_drive h hw).2.1⟩

/-- A bus that the control unit never puts out. It stores a byte of the instruction pointer, at the
address in the register that the third field names, and jumps to an immediate in the same cycle. -/
theorem drive_is_safe_jump :
    let bus : Bus := { idle with
      writesRegister := true, target := .ip, result := .immediateHigh, source1 := .r3,
      writesMemory := true, storesByte := true, address := .source1, store := .ip }
    let regs := RegisterFile.zero.write .g4 3 .both
    let memory : Memory := ⟨#[0x1111, 0x2222]⟩
    ∃ e, bus.drive 0x4A00 regs memory = .ok e ∧ e.readData = 0x2222 ∧
      (∀ w, e.registerWrite = some w → w.register = .ip ∧ w.mask ≠ .none ∧
        w.data &&& ~~~w.mask.lanes = 0) ∧
      ∃ memory', e.mergeMemory memory = .ok memory' ∧ memory'.capacity = memory.capacity := by
  intro bus regs memory
  obtain ⟨hfails, hsafe⟩ := drive_is_safe bus 0x4A00 regs memory
  obtain ⟨e, he⟩ : ∃ e, bus.drive 0x4A00 regs memory = .ok e := by
    cases hdrive : bus.drive 0x4A00 regs memory with
    | ok e => exact ⟨e, rfl⟩
    | error fault =>
        obtain ⟨-, hle, -⟩ := (hfails fault).1 hdrive
        exact absurd hle (by decide)
  obtain ⟨hread, -, -, hregister, -, -, -, memory', hmerge, hcapacity, -⟩ := hsafe e he
  have hindex : (if bus.address = .ip then regs.ip
      else regs.get (bus.source1.resolve 0x4A00)).toNat / 2 = 1 := by decide
  have hword : memory.read 1 = .ok 0x2222 := rfl
  rw [hindex, hword] at hread
  exact ⟨e, he, (Except.ok.inj (hread (.inr rfl))).symm, hregister, memory', hmerge, hcapacity⟩

end Bus

end Smolisa
