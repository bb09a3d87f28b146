import Smolisa.Instruction.Opcode
import Smolisa.Register.Basic
import Smolisa.Word.Basic

/-!
# Instruction Words

An instruction is one word. Its opcode stands in bits 0 to 3 and its first register in bits 4
to 7. The upper byte holds either two more registers, in bits 8 to 11 and 12 to 15, or one
immediate byte: the two readings share their bits.

## Main results

* `Word.toNat_encodeRegister` and `Word.toNat_encodeImmediate` — **the layout.** An encoded
  word is the sum of its fields, each scaled to its position.
* `Word.toNat_opcodeNibble`, `Word.val_index_r1`, `Word.val_index_r2`, `Word.val_index_r3`
  and `Word.toNat_imm8` — each field reads the digits at its position.
-/

namespace Smolisa

namespace Word

/-- The bit pattern of the opcode. -/
def opcodeNibble (w : Word) : UInt8 :=
  (w &&& 0x000F).toUInt8

/-- The first register named. -/
def r1 (w : Word) : Register :=
  .ofNibble (w >>> 4).toUInt8

/-- The second register named. -/
def r2 (w : Word) : Register :=
  .ofNibble (w >>> 8).toUInt8

/-- The third register named. -/
def r3 (w : Word) : Register :=
  .ofNibble (w >>> 12).toUInt8

/-- The immediate byte. -/
def imm8 (w : Word) : UInt8 :=
  (w >>> 8).toUInt8

/-- The opcode that a machine with a given profile executes for a word, if it executes
one. -/
def opcode? (profile : Profile) (w : Word) : Option Opcode :=
  Opcode.decode? profile w.opcodeNibble

/-- The word that names an opcode and three registers. -/
def encodeRegister (op : Opcode) (r1 r2 r3 : Register) : Word :=
  op.nibble.toUInt16 ||| (UInt16.ofNat r1.index <<< 4) ||| (UInt16.ofNat r2.index <<< 8) |||
    (UInt16.ofNat r3.index <<< 12)

/-- The word that names an opcode, a register and an immediate byte. -/
def encodeImmediate (op : Opcode) (r1 : Register) (imm8 : UInt8) : Word :=
  op.nibble.toUInt16 ||| (UInt16.ofNat r1.index <<< 4) ||| (imm8.toUInt16 <<< 8)

/-! ### Reading fields as digits -/

theorem toNat_opcodeNibble (w : Word) : w.opcodeNibble.toNat = w.toNat % 16 := by
  have h (n : Nat) : n &&& 15 = n % 16 := Nat.and_two_pow_sub_one_eq_mod n 4
  simp [opcodeNibble, h]

theorem val_index_r1 (w : Word) : w.r1.index.val = w.toNat / 16 % 16 := by
  simp [r1, Nat.shiftRight_eq_div_pow]

theorem val_index_r2 (w : Word) : w.r2.index.val = w.toNat / 256 % 16 := by
  simp [r2, Nat.shiftRight_eq_div_pow]

theorem val_index_r3 (w : Word) : w.r3.index.val = w.toNat / 4096 := by
  have := w.toNat_lt
  simp [r3, Nat.shiftRight_eq_div_pow]
  omega

theorem toNat_imm8 (w : Word) : w.imm8.toNat = w.toNat / 256 := by
  have := w.toNat_lt
  simp [imm8, Nat.shiftRight_eq_div_pow]
  omega

/-! ### Writing fields at their positions -/

/-- Setting a number above the bits that another one occupies adds the two. -/
theorem or_shiftLeft {a b : Nat} (i : Nat) (h : a < 1 <<< i) : a ||| b <<< i = a + b <<< i := by
  rw [Nat.one_shiftLeft] at h
  rw [Nat.or_comm, Nat.shiftLeft_eq, Nat.mul_comm b, ← Nat.two_pow_add_eq_or_of_lt h,
    Nat.add_comm]

theorem toNat_encodeRegister (op : Opcode) (r1 r2 r3 : Register) :
    (encodeRegister op r1 r2 r3).toNat =
      op.nibble.toNat + 16 * r1.index + 256 * r2.index + 4096 * r3.index := by
  have hop : op.nibble.toNat < 16 := by cases op <;> decide
  have h1 := r1.index.isLt
  have h2 := r2.index.isLt
  have h3 := r3.index.isLt
  have e1 : (UInt16.ofNat r1.index <<< 4 : Word).toNat = r1.index.val <<< 4 := by
    cases r1 <;> rfl
  have e2 : (UInt16.ofNat r2.index <<< 8 : Word).toNat = r2.index.val <<< 8 := by
    cases r2 <;> rfl
  have e3 : (UInt16.ofNat r3.index <<< 12 : Word).toNat = r3.index.val <<< 12 := by
    cases r3 <;> rfl
  rw [encodeRegister, UInt16.toNat_or, UInt16.toNat_or, UInt16.toNat_or, e1, e2, e3,
    UInt8.toNat_toUInt16, or_shiftLeft 4 (by omega), or_shiftLeft 8 (by omega),
    or_shiftLeft 12 (by omega)]
  omega

theorem toNat_encodeImmediate (op : Opcode) (r1 : Register) (imm8 : UInt8) :
    (encodeImmediate op r1 imm8).toNat =
      op.nibble.toNat + 16 * r1.index + 256 * imm8.toNat := by
  have hop : op.nibble.toNat < 16 := by cases op <;> decide
  have h1 := r1.index.isLt
  have himm := imm8.toNat_lt
  have e1 : (UInt16.ofNat r1.index <<< 4 : Word).toNat = r1.index.val <<< 4 := by
    cases r1 <;> rfl
  have e2 : (imm8.toUInt16 <<< 8 : Word).toNat = imm8.toNat <<< 8 := by
    rw [UInt16.toNat_shiftLeft, UInt8.toNat_toUInt16, show (8 : Word).toNat % 16 = 8 from rfl,
      Nat.shiftLeft_eq]
    exact Nat.mod_eq_of_lt (by omega)
  rw [encodeImmediate, UInt16.toNat_or, UInt16.toNat_or, e1, e2, UInt8.toNat_toUInt16,
    or_shiftLeft 4 (by omega), or_shiftLeft 8 (by omega)]
  omega

end Word

end Smolisa
