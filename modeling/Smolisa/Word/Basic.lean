/-!
# Machine Words

The machine computes with words of sixteen bits. Arithmetic on them wraps modulo `2 ^ 16`,
registers and memory cells hold one word each, and an instruction is one word too. A word
consists of two bytes, its *lanes*, and bytes are what the immediate loads, the byte loads
and the byte stores move.

## Main results

* `Word.byte_ext` — a word is determined by its two bytes.
-/

namespace Smolisa

/-- A machine word: sixteen bits with wrapping arithmetic. -/
abbrev Word := UInt16

/-- One of the two bytes of a word. -/
inductive Lane
  | low
  | high
  deriving DecidableEq

namespace Word

/-- The byte that a word holds in one of its lanes. -/
def byte (w : Word) : Lane → UInt8
  | .low => w.toUInt8
  | .high => (w >>> 8).toUInt8

/-- A word is determined by its two bytes. -/
theorem byte_ext {v w : Word} (h : ∀ lane, v.byte lane = w.byte lane) : v = w := by
  have hlow := congrArg UInt8.toNat (h .low)
  have hhigh := congrArg UInt8.toNat (h .high)
  simp only [byte, UInt16.toNat_toUInt8, UInt16.toNat_shiftRight] at hlow hhigh
  have hv := v.toNat_lt
  have hw := w.toNat_lt
  simp only [show (8 : UInt16).toNat % 16 = 8 from rfl, Nat.shiftRight_eq_div_pow] at hhigh
  apply UInt16.toNat_inj.1
  omega

@[simp] theorem byte_and (v w : Word) (lane : Lane) :
    (v &&& w).byte lane = v.byte lane &&& w.byte lane := by
  cases lane <;> simp [byte, UInt16.shiftRight_and]

@[simp] theorem byte_or (v w : Word) (lane : Lane) :
    (v ||| w).byte lane = v.byte lane ||| w.byte lane := by
  cases lane <;> simp [byte, UInt16.shiftRight_or]

end Word

end Smolisa
