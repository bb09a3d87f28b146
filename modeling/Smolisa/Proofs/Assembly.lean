import Smolisa.Proofs.Disassembly
import Smolisa.Proofs.Window

/-!
# Instructions and Their Words

An instruction names an opcode together with the operands that the format of the opcode has room
for: one register and a byte, or three registers. The encoder of its format makes one word of it.
The fields of a word are read by extractors which know nothing of formats; each of them looks at its
own bits, and the byte shares its bits with two of the registers.

Nothing is lost on the way, in either direction. The extractors find in an encoded word what has
been put into it, and either encoder makes any word again from the fields of that word. What holds
of one word then holds of programs of any length that memory has room for: a listing of memory,
after such a program is loaded, shows the instructions that it was made of.

## Main results

* `Word.opcode?_encodeRegister`, `Word.r1_encodeRegister`, `Word.imm8_encodeImmediate` and their
  like — the fields of an encoded word.
* `Word.encodeRegister_fields` and `Word.encodeImmediate_fields` — a word is encoded by its fields.
* `Instruction.row_word` — the row of a listing that shows the word of an instruction.
* `Instruction.word_inj` — instructions are told apart by their words.
* `Machine.ofImage_of_le` — a machine that is built with a program.
* `Assembly.encoding_round_trips` — **encoding round-trips through memory and decoding.**
-/

namespace Smolisa

/-- The bit pattern of an opcode takes four bits. -/
theorem Opcode.toNat_nibble_lt (op : Opcode) : op.nibble.toNat < 16 := by
  cases op <;> decide

/-! ### The fields of encoded words -/

namespace Word

section Register

variable (op : Opcode) (a b c : Register)

theorem opcodeNibble_encodeRegister : (encodeRegister op a b c).opcodeNibble = op.nibble := by
  have hop := op.toNat_nibble_lt
  apply UInt8.toNat_inj.1
  rw [toNat_opcodeNibble, toNat_encodeRegister]
  omega

/-- Under the full profile the opcode decodes. -/
theorem opcode?_encodeRegister : (encodeRegister op a b c).opcode? .full = some op :=
  Opcode.decode?_eq_some_iff.2 ⟨opcodeNibble_encodeRegister op a b c, rfl⟩

@[simp] theorem r1_encodeRegister : (encodeRegister op a b c).r1 = a := by
  have hop := op.toNat_nibble_lt
  have ha := a.index.isLt
  apply Register.index_inj.1
  apply Fin.ext
  rw [val_index_r1, toNat_encodeRegister]
  omega

@[simp] theorem r2_encodeRegister : (encodeRegister op a b c).r2 = b := by
  have hop := op.toNat_nibble_lt
  have ha := a.index.isLt
  have hb := b.index.isLt
  apply Register.index_inj.1
  apply Fin.ext
  rw [val_index_r2, toNat_encodeRegister]
  omega

@[simp] theorem r3_encodeRegister : (encodeRegister op a b c).r3 = c := by
  have hop := op.toNat_nibble_lt
  have ha := a.index.isLt
  have hb := b.index.isLt
  apply Register.index_inj.1
  apply Fin.ext
  rw [val_index_r3, toNat_encodeRegister]
  omega

end Register

section Immediate

variable (op : Opcode) (a : Register) (byte : UInt8)

theorem opcodeNibble_encodeImmediate : (encodeImmediate op a byte).opcodeNibble = op.nibble := by
  have hop := op.toNat_nibble_lt
  apply UInt8.toNat_inj.1
  rw [toNat_opcodeNibble, toNat_encodeImmediate]
  omega

/-- Under the full profile the opcode decodes. -/
theorem opcode?_encodeImmediate : (encodeImmediate op a byte).opcode? .full = some op :=
  Opcode.decode?_eq_some_iff.2 ⟨opcodeNibble_encodeImmediate op a byte, rfl⟩

@[simp] theorem r1_encodeImmediate : (encodeImmediate op a byte).r1 = a := by
  have hop := op.toNat_nibble_lt
  have ha := a.index.isLt
  apply Register.index_inj.1
  apply Fin.ext
  rw [val_index_r1, toNat_encodeImmediate]
  omega

@[simp] theorem imm8_encodeImmediate : (encodeImmediate op a byte).imm8 = byte := by
  have hop := op.toNat_nibble_lt
  have ha := a.index.isLt
  apply UInt8.toNat_inj.1
  rw [toNat_imm8, toNat_encodeImmediate]
  omega

end Immediate

section Fields

variable {op : Opcode} {w : Word} (h : w.opcodeNibble = op.nibble)
include h

/-- A word is encoded by its opcode and its three registers, whatever its format is. -/
theorem encodeRegister_fields : encodeRegister op w.r1 w.r2 w.r3 = w := by
  apply UInt16.toNat_inj.1
  rw [toNat_encodeRegister, ← h, ← toNat_eq_fields]

/-- A word is encoded by its opcode, its first register and its byte, whatever its format is. -/
theorem encodeImmediate_fields : encodeImmediate op w.r1 w.imm8 = w := by
  apply UInt16.toNat_inj.1
  rw [toNat_encodeImmediate, ← h, toNat_opcodeNibble, val_index_r1, toNat_imm8]
  omega

end Fields

/-- Under the full profile every word decodes. -/
theorem exists_opcode?_full (w : Word) : ∃ op, w.opcode? .full = some op := by
  have hlt : w.opcodeNibble < 16 := by
    rw [UInt8.lt_iff_toNat_lt, toNat_opcodeNibble]
    exact Nat.mod_lt _ (by decide)
  exact Option.isSome_iff_exists.1 (Opcode.decode?_full hlt)

end Word

/-! ### Instructions -/

/-- An instruction: an opcode, with the operands that its format has room for. -/
inductive Instruction
  | immediate (op : Opcode) (target : Register) (byte : UInt8)
      (format_eq : op.format = .immediate)
  | register (op : Opcode) (a b c : Register) (format_eq : op.format = .register)
  deriving DecidableEq

namespace Instruction

/-- The opcode of an instruction. -/
def opcode : Instruction → Opcode
  | immediate op .. | register op .. => op

/-- The word of an instruction, as the encoder of its format makes it. -/
def word : Instruction → Word
  | immediate op target byte _ => .encodeImmediate op target byte
  | register op a b c _ => .encodeRegister op a b c

/-- The operands of an instruction in assembly text. -/
def operands : Instruction → String
  | immediate _ target byte _ => target.name ++ ", " ++ Hex.ofByte byte
  | register op a b c _ =>
    match op with
    | .lb | .lw => b.name ++ ", [" ++ a.name ++ "]"
    | .sb | .sw => "[" ++ a.name ++ "], " ++ b.name
    | _ => a.name ++ ", " ++ b.name ++ ", " ++ c.name

/-- The row of a listing that shows an instruction. -/
def row (i : Instruction) (addr : Word) : Listing.Row :=
  ⟨addr, i.word, i.opcode.mnemonic, i.operands, false⟩

/-- The word of an instruction decodes to its opcode. -/
theorem opcode?_word (i : Instruction) : i.word.opcode? .full = some i.opcode := by
  cases i with
  | immediate op target byte _ => exact Word.opcode?_encodeImmediate op target byte
  | register op a b c _ => exact Word.opcode?_encodeRegister op a b c

/-- The word of an instruction has its operands. -/
theorem operands_word (i : Instruction) : i.word.operands i.opcode = i.operands := by
  obtain ⟨op, target, byte, hformat⟩ | ⟨op, a, b, c, hformat⟩ := i
  · cases op <;> cases hformat <;> simp [word, opcode, operands, Word.operands]
  · cases op <;> cases hformat <;> simp [word, opcode, operands, Word.operands]

/-- **The word of an instruction is listed as that instruction.** -/
theorem row_word (i : Instruction) (addr : Word) :
    Listing.Row.ofWord addr i.word .full = i.row addr := by
  rw [Listing.Row.ofWord, opcode?_word, row, ← operands_word]

/-- **Instructions are told apart by their words.** -/
theorem word_inj {i j : Instruction} (h : i.word = j.word) : i = j := by
  have hop : i.opcode = j.opcode := by
    have hdecode := congrArg (Word.opcode? .full) h
    rwa [opcode?_word, opcode?_word, Option.some.injEq] at hdecode
  -- The opcode fixes the format, and the fields of the word are the operands.
  obtain ⟨op, target, byte, hformat⟩ | ⟨op, a, b, c, hformat⟩ := i <;>
    obtain ⟨op', target', byte', hformat'⟩ | ⟨op', a', b', c', hformat'⟩ := j <;>
    obtain rfl : op = op' := hop
  · have htarget := congrArg Word.r1 h
    have hbyte := congrArg Word.imm8 h
    simp only [word, Word.r1_encodeImmediate, Word.imm8_encodeImmediate] at htarget hbyte
    rw [htarget, hbyte]
  · cases hformat.symm.trans hformat'
  · cases hformat.symm.trans hformat'
  · have ha := congrArg Word.r1 h
    have hb := congrArg Word.r2 h
    have hc := congrArg Word.r3 h
    simp only [word, Word.r1_encodeRegister, Word.r2_encodeRegister, Word.r3_encodeRegister]
      at ha hb hc
    rw [ha, hb, hc]

end Instruction

/-! ### Programs in memory -/

/-- A memory that begins with some words is read below their number as these words. -/
theorem Memory.get_append {image rest : Array Word} {i : Nat} (hi : i < image.size) :
    Memory.get ⟨image ++ rest⟩ i = image[i] := by
  simp [get, Array.getElem?_append, hi]

/-- **A machine that is built with a program** is a new one, but for its memory. This holds the
program, and zeros behind its end. -/
theorem Machine.ofImage_of_le {config : Config} {image : Array Word}
    (h : image.size ≤ config.memoryWords) :
    ofImage config image =
      .ok { new config with
        memory := ⟨image ++ Array.replicate (config.memoryWords - image.size) 0⟩ } := by
  have hcap : (new config).memory.capacity = config.memoryWords := Memory.capacity_zero _
  refine load_eq_ok_iff.2 ⟨_, ?_, rfl⟩
  rw [Memory.load, hcap, if_pos h]

namespace Assembly

/-- The words of a program. -/
def image (program : List Instruction) : Array Word :=
  (program.map Instruction.word).toArray

@[simp] theorem size_image (program : List Instruction) :
    (image program).size = program.length := by
  simp [image]

/-- Programs are told apart by their words. -/
theorem image_inj {p q : List Instruction} (h : image p = image q) : p = q := by
  refine List.map_injective_iff.2 (fun i j hij => Instruction.word_inj hij) ?_
  simpa [image] using h

/-- **A program that memory begins with is listed as it is**, as far as its addresses have sixteen
bits. -/
theorem window_image {program : List Instruction} (h : program.length ≤ 32768)
    (rest : Array Word) :
    Listing.window 0 program.length ⟨image program ++ rest⟩ .full =
      program.mapIdx fun i x => x.row (UInt16.ofNat (2 * i)) := by
  have hzero : Memory.wordIndex 0 = 0 := rfl
  have hcap : program.length ≤ Memory.capacity ⟨image program ++ rest⟩ := by
    simp [Memory.capacity]
  have hcount : min program.length (min (Memory.capacity ⟨image program ++ rest⟩) 32768 - 0) =
      program.length := by omega
  rw [Listing.window_eq_map, hzero, hcount]
  refine List.ext_getElem (by simp) fun i hi _ => ?_
  have hlt : i < program.length := by simpa using hi
  have hword : Memory.get ⟨image program ++ rest⟩ i = program[i].word := by
    rw [Memory.get_append (by simpa using hlt)]
    simp [image]
  simp only [List.getElem_map, List.getElem_range, List.getElem_mapIdx, Nat.mul_zero, Nat.zero_add,
    hword, Instruction.row_word]

/-- **Encoding round-trips through memory and decoding.** The fields that are encoded are read back,
whichever the encoder and the opcode are. Every word decodes under the full profile, and either
encoder makes it again from the opcode and the fields that are read from it. So a program that
memory has room for, up to the end of the addresses of sixteen bits, is accepted and then listed
instruction by instruction, each at its address and with its mnemonic and its operands. And programs
with the same words are the same. -/
theorem encoding_round_trips :
    (∀ op a b c,
      (Word.encodeRegister op a b c).opcode? .full = some op ∧
      (Word.encodeRegister op a b c).r1 = a ∧ (Word.encodeRegister op a b c).r2 = b ∧
      (Word.encodeRegister op a b c).r3 = c) ∧
    (∀ op a byte,
      (Word.encodeImmediate op a byte).opcode? .full = some op ∧
      (Word.encodeImmediate op a byte).r1 = a ∧ (Word.encodeImmediate op a byte).imm8 = byte) ∧
    (∀ w : Word, ∃ op, w.opcode? .full = some op ∧
      w = Word.encodeRegister op w.r1 w.r2 w.r3 ∧ w = Word.encodeImmediate op w.r1 w.imm8) ∧
    (∀ (config : Config) (program : List Instruction),
      program.length ≤ min config.memoryWords 32768 →
      ∃ m, Machine.ofImage config (image program) = .ok m ∧
        (Listing.window 0 program.length m.memory .full).length = program.length ∧
        ∀ i x, program[i]? = some x →
          ∃ row : Listing.Row,
            (Listing.window 0 program.length m.memory .full)[i]? = some row ∧
            row.addr.toNat = 2 * i ∧ row.word = x.word ∧ row.mnemonic = x.opcode.mnemonic ∧
            row.operands = x.operands ∧ row.isIllegal = false) ∧
    ∀ p q, image p = image q → p = q := by
  refine ⟨fun op a b c => ?_, fun op a byte => ?_, fun w => ?_, fun config program h => ?_,
    fun _ _ => image_inj⟩
  · exact ⟨Word.opcode?_encodeRegister op a b c, Word.r1_encodeRegister op a b c,
      Word.r2_encodeRegister op a b c, Word.r3_encodeRegister op a b c⟩
  · exact ⟨Word.opcode?_encodeImmediate op a byte, Word.r1_encodeImmediate op a byte,
      Word.imm8_encodeImmediate op a byte⟩
  · obtain ⟨op, hop⟩ := w.exists_opcode?_full
    obtain ⟨hnibble, -⟩ := Opcode.decode?_eq_some_iff.1 hop
    exact ⟨op, hop, (Word.encodeRegister_fields hnibble).symm,
      (Word.encodeImmediate_fields hnibble).symm⟩
  · obtain ⟨hmemory, haddrs⟩ := le_min_iff.1 h
    refine ⟨_, Machine.ofImage_of_le (by simpa using hmemory), ?_⟩
    rw [window_image haddrs]
    refine ⟨List.length_mapIdx, fun i x hx => ?_⟩
    obtain ⟨hi, -⟩ := List.getElem?_eq_some_iff.1 hx
    refine ⟨x.row (UInt16.ofNat (2 * i)), ?_, ?_, rfl, rfl, rfl, rfl⟩
    · rw [List.getElem?_mapIdx, hx, Option.map_some]
    · exact UInt16.toNat_ofNat_of_lt' (show 2 * i < 65536 by omega)

/-- A program of three instructions fills a memory of three words. Its load, for whose third
register field the text has no room, is listed as the second row. -/
theorem encoding_round_trips_load :
    let program : List Instruction := [.immediate .liu .g15 0xAB rfl,
      .register .lw .g1 .ip .g7 rfl, .register .sub .g2 .g2 .g3 rfl]
    program.length ≤ min 3 32768 ∧
      ∃ m, Machine.ofImage ⟨3, .full⟩ (image program) = .ok m ∧
        ∃ row : Listing.Row, (Listing.window 0 3 m.memory .full)[1]? = some row ∧
          row.addr.toNat = 2 ∧ row.mnemonic = "lw" ∧ row.operands = "ip, [g1]" ∧
          row.isIllegal = false := by
  intro program
  have hfits : program.length ≤ min 3 32768 := by decide
  obtain ⟨-, -, -, hlisted, -⟩ := encoding_round_trips
  obtain ⟨m, hm, -, hrows⟩ := hlisted ⟨3, .full⟩ program hfits
  obtain ⟨row, hrow, haddr, -, hmnemonic, hoperands, hlegal⟩ :=
    hrows 1 (.register .lw .g1 .ip .g7 rfl) rfl
  exact ⟨hfits, m, hm, row, hrow, haddr, hmnemonic, hoperands, hlegal⟩

end Assembly

end Smolisa
