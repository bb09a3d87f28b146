import Smolisa.Listing.Row
import Smolisa.Proofs.Action

/-!
# What Assembly Text Tells

The assembly text of a word is meant for readers, and it leaves something out: a load and a store
name two registers, so the third register field of their words is not shown. Everything else is. Two
words have the same text only if they are equal, or if they are the same load or store but for that
field. And a field that is not shown is not looked at either. The datapath sees an instruction word
through the selectors of its bus only, and none of those that a load or a store puts out reaches the
field. So words with the same text do the same, in every micro-cycle, on all registers and memories.

Text is taken apart at its marks: a blank behind the mnemonic, commas and brackets around the
operands. A piece in front of a mark does not contain it, and so the mark shows where the piece ends.

## Main results

* `Text.append_mark_inj` — texts are told apart in front of a mark and behind it.
* `Word.operands_eq_iff` — what the operands in a text say of the fields of the word.
* `Listing.disassemble_eq_iff_fields` — what a text tells of an instruction.
* `Bus.drive_congr` — a cycle looks at the instruction word through its selectors only.
* `Listing.equal_text_equal_execution` — **equal disassembly means equal execution, and nothing
  else is hidden.**
-/

namespace Smolisa

/-! ### Marks in texts -/

namespace Text

/-- Two lists with a mark are equal only if they are equal in front of the mark and behind it, as
long as the parts in front do not contain the mark. -/
theorem append_cons_inj {mark : Char} {a b x y : List Char} (ha : mark ∉ a) (hb : mark ∉ b)
    (h : a ++ mark :: x = b ++ mark :: y) : a = b ∧ x = y := by
  induction a generalizing b with
  | nil =>
      cases b with
      | nil => exact ⟨rfl, (List.cons.inj h).2⟩
      | cons c b => exact absurd (List.cons.inj h).1 (fun e => hb (e ▸ List.mem_cons_self))
  | cons c a ih =>
      cases b with
      | nil => exact absurd (List.cons.inj h).1.symm (fun e => ha (e ▸ List.mem_cons_self))
      | cons d b =>
          obtain ⟨rfl, htail⟩ := List.cons.inj h
          obtain ⟨rfl, hxy⟩ := ih (fun hmem => ha (List.mem_cons_of_mem _ hmem))
            (fun hmem => hb (List.mem_cons_of_mem _ hmem)) htail
          exact ⟨rfl, hxy⟩

/-- **Texts are told apart in front of a mark and behind it.** Here the mark is what a separator
begins with. -/
theorem append_mark_inj {mark : Char} {rest : List Char} {sep a b x y : String}
    (hsep : sep.toList = mark :: rest) (ha : mark ∉ a.toList) (hb : mark ∉ b.toList)
    (h : a ++ (sep ++ x) = b ++ (sep ++ y)) : a = b ∧ x = y := by
  have hlist := congrArg String.toList h
  simp only [String.toList_append, hsep, List.cons_append] at hlist
  obtain ⟨hab, hxy⟩ := append_cons_inj ha hb hlist
  exact ⟨String.toList_inj.1 hab, String.toList_inj.1 (List.append_cancel_left hxy)⟩

end Text

/-- The name of a register contains neither a comma nor a bracket. -/
theorem Register.mark_not_mem_name (r : Register) :
    ',' ∉ r.name.toList ∧ ']' ∉ r.name.toList := by
  cases r <;> simp [name]

/-- A mnemonic contains no blank. -/
theorem Opcode.blank_not_mem_mnemonic (op : Opcode) : ' ' ∉ op.mnemonic.toList := by
  cases op <;> simp [mnemonic]

/-- A word that is no instruction is not shown by a mnemonic of one. -/
theorem Opcode.mnemonic_ne_word (op : Opcode) : op.mnemonic ≠ ".word" := by
  cases op <;> decide

/-! ### Words and their fields -/

namespace Word

/-- A word is the sum of its fields, each scaled to its position. -/
theorem toNat_eq_fields (w : Word) :
    w.toNat = w.opcodeNibble.toNat + 16 * w.r1.index + 256 * w.r2.index + 4096 * w.r3.index := by
  rw [toNat_opcodeNibble, val_index_r1, val_index_r2, val_index_r3]
  omega

/-- A word is determined by its fields. -/
theorem eq_of_fields {v w : Word} (hop : v.opcodeNibble = w.opcodeNibble) (h1 : v.r1 = w.r1)
    (h2 : v.r2 = w.r2) (h3 : v.r3 = w.r3) : v = w := by
  apply UInt16.toNat_inj.1
  rw [toNat_eq_fields v, toNat_eq_fields w, hop, h1, h2, h3]

/-- The immediate byte shares its bits with the second and the third register. -/
theorem imm8_eq_iff {v w : Word} : v.imm8 = w.imm8 ↔ v.r2 = w.r2 ∧ v.r3 = w.r3 := by
  rw [← UInt8.toNat_inj, ← Register.index_inj, ← Register.index_inj, Fin.ext_iff, Fin.ext_iff,
    toNat_imm8, toNat_imm8, val_index_r2, val_index_r2, val_index_r3, val_index_r3]
  omega

/-- The twelve low bits of a word hold the opcode and the first two registers. -/
theorem and_low_eq_iff {v w : Word} :
    v &&& 0x0FFF = w &&& 0x0FFF ↔
      v.opcodeNibble = w.opcodeNibble ∧ v.r1 = w.r1 ∧ v.r2 = w.r2 := by
  have hlow (w : Word) : (w &&& 0x0FFF).toNat = w.toNat % 4096 := by
    rw [UInt16.toNat_and]
    exact Nat.and_two_pow_sub_one_eq_mod _ 12
  rw [← UInt16.toNat_inj, hlow, hlow, ← UInt8.toNat_inj, ← Register.index_inj,
    ← Register.index_inj, Fin.ext_iff, Fin.ext_iff, toNat_opcodeNibble, toNat_opcodeNibble,
    val_index_r1, val_index_r1, val_index_r2, val_index_r2]
  omega

/-! ### The text of the operands -/

/-- **What the operands tell.** They show the fields of the word, all but the third register of an
instruction that accesses memory. -/
theorem operands_eq_iff {op : Opcode} {v w : Word} :
    v.operands op = w.operands op ↔
      v.r1 = w.r1 ∧ v.r2 = w.r2 ∧ (op.accessesMemory = false → v.r3 = w.r3) := by
  have comma (r : Register) : ',' ∉ r.name.toList := r.mark_not_mem_name.1
  have bracket (r : Register) : ']' ∉ r.name.toList := r.mark_not_mem_name.2
  constructor
  · intro h
    cases op
    case li | liu =>
      simp only [operands, String.append_assoc] at h
      obtain ⟨h1, himm⟩ := Text.append_mark_inj rfl (comma _) (comma _) h
      obtain ⟨h2, h3⟩ := imm8_eq_iff.1 (Hex.ofByte_inj himm)
      exact ⟨Register.name_inj h1, h2, fun _ => h3⟩
    case lb | lw =>
      simp only [operands, String.append_assoc] at h
      obtain ⟨h2, hrest⟩ := Text.append_mark_inj rfl (comma _) (comma _) h
      have h1 := (String.append_left_inj _).1 hrest
      exact ⟨Register.name_inj h1, Register.name_inj h2, fun hno => by cases hno⟩
    case sb | sw =>
      simp only [operands, String.append_assoc] at h
      obtain ⟨h1, h2⟩ := Text.append_mark_inj rfl (bracket _) (bracket _)
        ((String.append_right_inj _).1 h)
      exact ⟨Register.name_inj h1, Register.name_inj h2, fun hno => by cases hno⟩
    all_goals
      simp only [operands, String.append_assoc] at h
      obtain ⟨h1, hrest⟩ := Text.append_mark_inj rfl (comma _) (comma _) h
      obtain ⟨h2, h3⟩ := Text.append_mark_inj rfl (comma _) (comma _) hrest
      exact ⟨Register.name_inj h1, Register.name_inj h2, fun _ => Register.name_inj h3⟩
  · rintro ⟨h1, h2, h3⟩
    cases op
    case lb | lw | sb | sw => simp only [operands, h1, h2]
    case li | liu => simp only [operands, h1, imm8_eq_iff.2 ⟨h2, h3 rfl⟩]
    all_goals simp only [operands, h1, h2, h3 rfl]

end Word

namespace Listing

/-- Words have the same text exactly if their rows have the same mnemonic and operands. -/
theorem disassemble_eq_iff_row {profile : Profile} {v w : Word} :
    disassemble v profile = disassemble w profile ↔
      (Row.ofWord 0 v profile).mnemonic = (Row.ofWord 0 w profile).mnemonic ∧
        (Row.ofWord 0 v profile).operands = (Row.ofWord 0 w profile).operands := by
  have blank (w : Word) : ' ' ∉ (Row.ofWord 0 w profile).mnemonic.toList := by
    rw [Row.ofWord]
    split
    · exact Opcode.blank_not_mem_mnemonic _
    · simp
  constructor
  · intro h
    simp only [disassemble, Row.text, String.append_assoc] at h
    exact Text.append_mark_inj rfl (blank v) (blank w) h
  · rintro ⟨hmnemonic, hoperands⟩
    rw [disassemble, disassemble, Row.text, Row.text, hmnemonic, hoperands]

/-- A word that is no instruction shares its text with no other word. -/
theorem eq_of_disassemble_eq_of_illegal {profile : Profile} {v w : Word}
    (hv : v.opcode? profile = none) (h : disassemble v profile = disassemble w profile) :
    v = w := by
  obtain ⟨hmnemonic, hoperands⟩ := disassemble_eq_iff_row.1 h
  cases hw : w.opcode? profile with
  | some op =>
      simp only [Row.ofWord, hv, hw] at hmnemonic
      exact absurd hmnemonic.symm op.mnemonic_ne_word
  | none =>
      simp only [Row.ofWord, hv, hw] at hoperands
      exact Hex.ofWord_inj ((String.append_left_inj _).1 hoperands)

/-- Two words that decode have the same text exactly if they decode to the same opcode and have
the same operands. -/
theorem disassemble_eq_iff_of_legal {profile : Profile} {v w : Word} {op : Opcode}
    (hv : v.opcode? profile = some op) :
    disassemble v profile = disassemble w profile ↔
      w.opcode? profile = some op ∧ v.operands op = w.operands op := by
  rw [disassemble_eq_iff_row]
  cases hw : w.opcode? profile with
  | none =>
      simp only [Row.ofWord, hv, hw, reduceCtorEq, false_and, iff_false]
      exact fun h => op.mnemonic_ne_word h.1
  | some op' =>
      simp only [Row.ofWord, hv, hw, Option.some.injEq]
      constructor
      · rintro ⟨hmnemonic, hoperands⟩
        obtain rfl := Opcode.mnemonic_inj hmnemonic
        exact ⟨rfl, hoperands⟩
      · rintro ⟨rfl, hoperands⟩
        exact ⟨rfl, hoperands⟩

/-- **What a text tells of an instruction.** Another word has the same text exactly if it has the
same fields, all but the third register of an instruction that accesses memory. -/
theorem disassemble_eq_iff_fields {profile : Profile} {v w : Word} {op : Opcode}
    (hv : v.opcode? profile = some op) :
    disassemble v profile = disassemble w profile ↔
      v.opcodeNibble = w.opcodeNibble ∧ v.r1 = w.r1 ∧ v.r2 = w.r2 ∧
        (op.accessesMemory = false → v.r3 = w.r3) := by
  obtain ⟨hnibble, hadmits⟩ := Opcode.decode?_eq_some_iff.1 hv
  have hw : w.opcode? profile = some op ↔ v.opcodeNibble = w.opcodeNibble := by
    constructor
    · intro hw
      exact hnibble.trans (Opcode.decode?_eq_some_iff.1 hw).1.symm
    · intro heq
      exact Opcode.decode?_eq_some_iff.2 ⟨heq.symm.trans hnibble, hadmits⟩
  rw [disassemble_eq_iff_of_legal hv, Word.operands_eq_iff, hw]

end Listing

/-! ### The datapath and the fields -/

namespace Bus

/-- **A cycle looks at the instruction word through its selectors only.** Two words on which the
selectors agree are driven alike. -/
theorem drive_congr {bus : Bus} {v w : Word}
    (htarget : bus.target.resolve v = bus.target.resolve w)
    (hsource1 : bus.source1.resolve v = bus.source1.resolve w)
    (hsource2 : bus.source2.resolve v = bus.source2.resolve w)
    (hresult : ∀ readData alu,
      bus.result.resolve v.imm8 readData alu = bus.result.resolve w.imm8 readData alu)
    (regs : RegisterFile) (memory : Memory) :
    bus.drive v regs memory = bus.drive w regs memory := by
  simp only [drive, loadData, memoryIndex, registerWrite, memoryWrite, aluOutput, source1Data,
    source2Data, htarget, hsource1, hsource2, hresult]

/-- No cycle of a load or a store looks at the third register field. -/
theorem drive_decode_congr {op : Opcode} (haccess : op.accessesMemory = true) {v w : Word}
    (h1 : v.r1 = w.r1) (h2 : v.r2 = w.r2) {micro : MicroOp} (hmicro : micro ∈ op.microProgram)
    (zero : Bool) (regs : RegisterFile) (memory : Memory) :
    (decode op micro zero).drive v regs memory = (decode op micro zero).drive w regs memory := by
  cases op
  case lb | lw =>
    obtain rfl := List.mem_singleton.1 hmicro
    apply drive_congr
    exacts [h2, h1, h2, fun _ _ => rfl]
  case sb | sw =>
    obtain rfl := List.mem_singleton.1 hmicro
    apply drive_congr
    exacts [h1, h1, h2, fun _ _ => rfl]
  all_goals cases haccess

end Bus

namespace Listing

/-- **Equal disassembly means equal execution, and nothing else is hidden.** Two words have the same
assembly text exactly if they are equal, or if under the full profile they are the same load or
store and agree on their twelve low bits. If two words have the same text and one of them decodes,
then both decode to the same opcode; and in every cycle of its micro-program, whatever the zero
latch, the registers and the memory are, the datapath does the same for them, be it a fault or the
same effects. -/
theorem equal_text_equal_execution (profile : Profile) (v w : Word) :
    (disassemble v profile = disassemble w profile ↔
      v = w ∨ profile = .full ∧
        (∃ op ∈ [Opcode.lb, .sb, .lw, .sw],
          v.opcodeNibble = op.nibble ∧ w.opcodeNibble = op.nibble) ∧
        v &&& 0x0FFF = w &&& 0x0FFF) ∧
    (disassemble v profile = disassemble w profile → ∀ op, v.opcode? profile = some op →
      w.opcode? profile = some op ∧
      ∀ micro ∈ op.microProgram, ∀ zero regs memory,
        (Bus.decode op micro zero).drive v regs memory =
          (Bus.decode op micro zero).drive w regs memory) := by
  refine ⟨⟨fun h => ?_, ?_⟩, fun h op hv => ?_⟩
  · cases hv : v.opcode? profile with
    | none => exact .inl (eq_of_disassemble_eq_of_illegal hv h)
    | some op =>
        obtain ⟨hnibble, h1, h2, h3⟩ := (disassemble_eq_iff_fields hv).1 h
        obtain ⟨hvnibble, hadmits⟩ := Opcode.decode?_eq_some_iff.1 hv
        cases haccess : op.accessesMemory with
        | false => exact .inl (Word.eq_of_fields hnibble h1 h2 (h3 haccess))
        | true =>
            refine .inr ⟨?_, ⟨op, Opcode.accessesMemory_iff_mem.1 haccess, hvnibble,
              hnibble.symm.trans hvnibble⟩, Word.and_low_eq_iff.2 ⟨hnibble, h1, h2⟩⟩
            cases profile with
            | full => rfl
            | datapath => cases haccess.symm.trans (Opcode.accessesMemory_of_datapath hadmits)
  · rintro (rfl | ⟨rfl, ⟨op, hop, hvnibble, -⟩, hlow⟩)
    · rfl
    · obtain ⟨hnibble, h1, h2⟩ := Word.and_low_eq_iff.1 hlow
      have hv : v.opcode? .full = some op := Opcode.decode?_eq_some_iff.2 ⟨hvnibble, rfl⟩
      have haccess := Opcode.accessesMemory_iff_mem.2 hop
      refine (disassemble_eq_iff_fields hv).2 ⟨hnibble, h1, h2, fun hno => ?_⟩
      cases haccess.symm.trans hno
  · obtain ⟨hw, -⟩ := (disassemble_eq_iff_of_legal hv).1 h
    obtain ⟨hnibble, h1, h2, h3⟩ := (disassemble_eq_iff_fields hv).1 h
    refine ⟨hw, fun micro hmicro zero regs memory => ?_⟩
    cases haccess : op.accessesMemory with
    | true => exact Bus.drive_decode_congr haccess h1 h2 hmicro zero regs memory
    | false => rw [Word.eq_of_fields hnibble h1 h2 (h3 haccess)]

/-- Two stores that differ in the third register field are different words with the same text, and
they do the same. -/
theorem equal_text_equal_execution_store :
    let v := Word.encodeRegister .sw .g1 .ip .g0
    let w := Word.encodeRegister .sw .g1 .ip .g15
    v ≠ w ∧ disassemble v .full = disassemble w .full ∧ w.opcode? .full = some .sw ∧
      ∀ zero regs memory, (Bus.decode .sw .execute zero).drive v regs memory =
        (Bus.decode .sw .execute zero).drive w regs memory := by
  intro v w
  have hsame : (∃ op ∈ [Opcode.lb, .sb, .lw, .sw],
      v.opcodeNibble = op.nibble ∧ w.opcodeNibble = op.nibble) ∧ v &&& 0x0FFF = w &&& 0x0FFF := by
    decide
  obtain ⟨htext, hdrive⟩ := equal_text_equal_execution .full v w
  have heq : disassemble v .full = disassemble w .full := htext.2 (.inr ⟨rfl, hsame⟩)
  obtain ⟨hop, halike⟩ := hdrive heq .sw (by decide)
  exact ⟨by decide, heq, hop, halike .execute (by decide)⟩

end Listing

end Smolisa
