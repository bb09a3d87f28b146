import Smolisa.Word.Basic

/-!
# The Arithmetic and Logic Unit

The unit combines two words into one and reports whether the outcome is zero. Sums and
differences wrap; a shift by sixteen places or more leaves nothing; `swb` sets the high byte
of its first operand below the low byte of its second.

## Main results

* `AluOp.compute_or_self` — combining a word with itself by `or` passes it through, which is
  how the conditional moves carry a register to its target.
-/

namespace Smolisa

/-- An operation of the arithmetic and logic unit. -/
inductive AluOp
  | add | sub | and | or | xor | shl | shr | swb
  deriving DecidableEq

/-- What the unit puts out. -/
structure AluOutput where
  /-- The combined word. -/
  result : Word
  /-- The zero flag. -/
  zero : Bool
  deriving DecidableEq

namespace AluOp

/-- The operations in the order of their selector codes. -/
def all : List AluOp :=
  [add, sub, and, or, xor, shl, shr, swb]

/-- The word that an operation makes of two words. -/
def apply : AluOp → Word → Word → Word
  | add, a, b => a + b
  | sub, a, b => a - b
  | and, a, b => a &&& b
  | or, a, b => a ||| b
  | xor, a, b => a ^^^ b
  | shl, a, b => if b < 16 then a <<< b else 0
  | shr, a, b => if b < 16 then a >>> b else 0
  | swb, a, b => (a >>> 8) ||| (b <<< 8)

/-- The output of the unit: the combined word, and whether it is zero. -/
def compute (op : AluOp) (a b : Word) : AluOutput :=
  let result := op.apply a b
  ⟨result, result == 0⟩

/-- Combining a word with itself by `or` passes it through. -/
@[simp] theorem compute_or_self (w : Word) : or.compute w w = ⟨w, w == 0⟩ := by
  simp [compute, apply]

end AluOp

end Smolisa
