import Smolisa.Listing.Dump
import Smolisa.Proofs.Disassembly

/-!
# What a Register Dump Tells

A dump of a register file and the latched instruction is text for readers, and nothing is lost in
it: the registers, the latched word and the style of the dump can be told from the text. The entries
of the registers come in a fixed order, and the value in each of them has a fixed width, so the
entries of one register in two dumps are as long as each other, and dumps are compared entry by
entry. The entry of the instruction is last. It has the word in front of the assembly text, so that
what the text leaves out is still there; and a profile shows in the assembly text only.

A dump on one line is one line: no piece of it has a line break.

## Main results

* `Dump.joinEntries_registers_inj` — register entries are told apart, whatever comes behind them.
* `Dump.instructionEntry_inj` — so are latched words.
* `Dump.head?_render` — the style shows in the first character.
* `Dump.register_dump_loses_nothing` — **a dump determines what was dumped.**
-/

namespace Smolisa

namespace Text

/-- Texts of the same length are told apart, whatever comes behind them. -/
theorem append_inj_of_length {a b x y : String} (hlength : a.length = b.length)
    (h : a ++ x = b ++ y) : a = b ∧ x = y := by
  have hlist := congrArg String.toList h
  rw [String.toList_append, String.toList_append] at hlist
  obtain ⟨hab, hxy⟩ := List.append_inj hlist hlength
  exact ⟨String.toList_inj.1 hab, String.toList_inj.1 hxy⟩

/-- The text has no line break. -/
def IsLine (s : String) : Prop :=
  '\n' ∉ s.toList

instance (s : String) : Decidable (IsLine s) :=
  inferInstanceAs (Decidable ('\n' ∉ s.toList))

@[simp] theorem isLine_append {a b : String} : IsLine (a ++ b) ↔ IsLine a ∧ IsLine b := by
  simp [IsLine, not_or]

end Text

open Text

/-! ### Pieces without line breaks -/

namespace Hex

/-- The characters of a number are digits. -/
theorem exists_of_mem_digits {c : Char} {width n : Nat} (h : c ∈ digits width n) :
    ∃ i : Fin 16, c = digit i := by
  induction width generalizing n with
  | zero => exact absurd h List.not_mem_nil
  | succ width ih =>
      rw [digits] at h
      rcases List.mem_append.1 h with h | h
      · exact ih h
      · exact ⟨⟨n % 16, Nat.mod_lt _ (by decide)⟩, List.mem_singleton.1 h⟩

/-- A number has no line break in it. -/
theorem isLine_digits (width n : Nat) : IsLine (String.ofList (digits width n)) := by
  have table : ∀ i : Fin 16, digit i ≠ '\n' := by decide
  rw [IsLine, String.toList_ofList]
  intro hmem
  obtain ⟨i, hi⟩ := exists_of_mem_digits hmem
  exact table i hi.symm

theorem isLine_ofWord (w : Word) : IsLine (ofWord w) :=
  isLine_append.2 ⟨by decide, isLine_digits _ _⟩

theorem isLine_ofByte (b : UInt8) : IsLine (ofByte b) :=
  isLine_append.2 ⟨by decide, isLine_digits _ _⟩

/-- The text of a word has six characters. -/
@[simp] theorem length_ofWord (w : Word) : (ofWord w).length = 6 := by
  have hmarker : "0x".length = 2 := rfl
  simp [ofWord, hmarker]

end Hex

theorem Register.isLine_name (r : Register) : IsLine r.name := by
  cases r <;> decide

theorem Opcode.isLine_mnemonic (op : Opcode) : IsLine op.mnemonic := by
  cases op <;> decide

/-- The operands of an instruction have no line break in them. -/
theorem Word.isLine_operands (op : Opcode) (w : Word) : IsLine (w.operands op) := by
  have comma : IsLine ", " := by decide
  have opening : IsLine "[" ∧ IsLine ", [" := by decide
  have closing : IsLine "]" ∧ IsLine "], " := by decide
  cases op <;>
    simp [operands, Register.isLine_name, Hex.isLine_ofByte, comma, opening, closing]

/-- The assembly text of a word is one line. -/
theorem Listing.isLine_disassemble (w : Word) (profile : Profile) :
    IsLine (disassemble w profile) := by
  have blank : IsLine " " := by decide
  have illegal : IsLine ".word " ∧ IsLine " ; illegal" := by decide
  rw [disassemble, Row.text, Row.ofWord]
  split
  · simp [Opcode.isLine_mnemonic, Word.isLine_operands, blank]
  · simp [Hex.isLine_ofWord, illegal]

namespace Dump

/-! ### Entries -/

/-- Entries of one register are as long as each other. -/
theorem length_registerEntry (r : Register) (v w : Word) :
    (registerEntry r v).length = (registerEntry r w).length := by
  simp [registerEntry]

/-- Entries of one register show different values differently. -/
theorem registerEntry_inj {r : Register} {v w : Word}
    (h : registerEntry r v = registerEntry r w) : v = w :=
  Hex.ofWord_inj ((String.append_right_inj _).1 h)

/-- **Register entries are told apart, whatever comes behind them.** -/
theorem joinEntries_registers_inj {separator : String} {a b : Register → Word} {x y : List String}
    {registers : List Register}
    (h : joinEntries separator (registers.map (fun r => registerEntry r (a r)) ++ x) =
      joinEntries separator (registers.map (fun r => registerEntry r (b r)) ++ y)) :
    (∀ r ∈ registers, a r = b r) ∧ joinEntries separator x = joinEntries separator y := by
  induction registers with
  | nil => exact ⟨fun r hr => absurd hr List.not_mem_nil, h⟩
  | cons r rest ih =>
      simp only [List.map_cons, List.cons_append, joinEntries, String.append_assoc] at h
      -- Entries at the same place are of the same register, so that they end at the same place.
      obtain ⟨hentry, hrest⟩ := append_inj_of_length (length_registerEntry r _ _) h
      obtain ⟨hvalues, hbehind⟩ := ih ((String.append_right_inj _).1 hrest)
      exact ⟨List.forall_mem_cons.2 ⟨registerEntry_inj hentry, hvalues⟩, hbehind⟩

/-- **Latched words are told apart**, also from none, and whatever the profiles are. -/
theorem instructionEntry_inj {c d : Option Word} {p q : Profile}
    (h : instructionEntry c p = instructionEntry d q) : c = d := by
  -- After the common beginning there is a digit for a word, and a letter for none.
  have word_ne_none {w : Word} {rest : String} : Hex.ofWord w ++ rest ≠ "none" := by
    intro heq
    have hhead := congrArg (fun s => s.toList.head?) heq
    simp [Hex.ofWord] at hhead
  have split_none : "opcode: none" = "opcode: " ++ "none" := rfl
  cases c with
  | none =>
      cases d with
      | none => rfl
      | some w =>
          simp only [instructionEntry, String.append_assoc, split_none] at h
          exact absurd ((String.append_right_inj _).1 h).symm word_ne_none
  | some v =>
      cases d with
      | none =>
          simp only [instructionEntry, String.append_assoc, split_none] at h
          exact absurd ((String.append_right_inj _).1 h) word_ne_none
      | some w =>
          simp only [instructionEntry, String.append_assoc] at h
          obtain ⟨hword, -⟩ := append_inj_of_length
            ((Hex.length_ofWord v).trans (Hex.length_ofWord w).symm)
            ((String.append_right_inj _).1 h)
          exact congrArg some (Hex.ofWord_inj hword)

/-! ### Dumps -/

theorem isLine_registerEntry (r : Register) (value : Word) : IsLine (registerEntry r value) := by
  have pieces : IsLine "$" ∧ IsLine ": " := by decide
  have padded : IsLine (paddedName r) := by cases r <;> decide
  simp [registerEntry, pieces, padded, Hex.isLine_ofWord]

theorem isLine_instructionEntry (latched : Option Word) (profile : Profile) :
    IsLine (instructionEntry latched profile) := by
  have pieces : IsLine "opcode: " ∧ IsLine " (" ∧ IsLine ")" := by decide
  have absent : IsLine "opcode: none" := by decide
  cases latched with
  | none => exact absent
  | some w => simp [instructionEntry, pieces, Hex.isLine_ofWord, Listing.isLine_disassemble]

theorem isLine_joinEntries {separator : String} (hseparator : IsLine separator)
    {entries : List String} (h : ∀ entry ∈ entries, IsLine entry) :
    IsLine (joinEntries separator entries) := by
  have hempty : IsLine "" := by decide
  induction entries with
  | nil => exact hempty
  | cons entry rest ih =>
      obtain ⟨hentry, hrest⟩ := List.forall_mem_cons.1 h
      exact isLine_append.2 ⟨isLine_append.2 ⟨hentry, hseparator⟩, ih hrest⟩

/-- A dump on one line is one line. -/
theorem isLine_render_oneline (registers : RegisterFile) (latched : Option Word)
    (profile : Profile) : IsLine (render registers latched profile .oneline) := by
  refine isLine_append.2 ⟨by decide, isLine_joinEntries (by decide) fun entry hentry => ?_⟩
  rcases List.mem_append.1 hentry with hentry | hentry
  · obtain ⟨r, -, rfl⟩ := List.mem_map.1 hentry
    exact isLine_registerEntry r _
  · rw [List.mem_singleton.1 hentry]
    exact isLine_instructionEntry latched profile

/-- **The style of a dump shows in its first character.** -/
theorem head?_render (registers : RegisterFile) (latched : Option Word) (profile : Profile)
    (style : DumpStyle) :
    (render registers latched profile style).toList.head? =
      some (match style with
        | .oneline => '$'
        | .multiline => '\n') := by
  have hall : Register.all = .g0 :: Register.all.tail := rfl
  rw [render, hall]
  cases style <;> simp [DumpStyle.heading, joinEntries, registerEntry]

/-- Dumps of one style tell their registers and their latched words apart. -/
theorem render_inj {style : DumpStyle} {a b : RegisterFile} {c d : Option Word} {p q : Profile}
    (h : render a c p style = render b d q style) : a = b ∧ c = d := by
  obtain ⟨hvalues, hlast⟩ := joinEntries_registers_inj ((String.append_right_inj _).1 h)
  simp only [joinEntries, String.append_assoc] at hlast
  exact ⟨RegisterFile.ext_get fun r => hvalues r (Register.mem_all r),
    instructionEntry_inj ((String.append_left_inj _).1 hlast)⟩

/-- **A dump determines what was dumped.** If two dumps are the same text, then the register files
are the same, the latched words are the same or both are absent, and the styles are the same,
whatever the profiles are. And a dump on one line has no line break in it. -/
theorem register_dump_loses_nothing :
    (∀ (a b : RegisterFile) (c d : Option Word) (p q : Profile) (s t : DumpStyle),
      render a c p s = render b d q t → a = b ∧ c = d ∧ s = t) ∧
    ∀ (registers : RegisterFile) (latched : Option Word) (profile : Profile),
      '\n' ∉ (render registers latched profile .oneline).toList := by
  refine ⟨fun a b c d p q s t h => ?_, isLine_render_oneline⟩
  have hstyle : s = t := by
    have hhead := congrArg (fun text => text.toList.head?) h
    simp only [head?_render] at hhead
    cases s <;> cases t <;> first | rfl | cases hhead
  subst hstyle
  obtain ⟨hregisters, hlatched⟩ := render_inj h
  exact ⟨hregisters, hlatched, rfl⟩

/-- Two dumps under different profiles of registers that were written in different ways. The texts
are the same, and so are the registers. -/
theorem register_dump_loses_nothing_profiles :
    let a := (RegisterFile.zero.write .g3 0x0034 .low).write .g3 0x1200 .high
    let b := RegisterFile.zero.write .g3 0x1234 .both
    let word := Word.encodeImmediate .li .g0 0x02
    render a (some word) .full .oneline = render b (some word) .datapath .oneline ∧ a = b ∧
      '\n' ∉ (render a (some word) .full .oneline).toList := by
  intro a b word
  have htext : render a (some word) .full .oneline = render b (some word) .datapath .oneline := by
    decide +kernel
  obtain ⟨hinj, hline⟩ := register_dump_loses_nothing
  exact ⟨htext, (hinj _ _ _ _ _ _ _ _ htext).1, hline _ _ _⟩

end Dump

end Smolisa
