import Smolisa.Word.Hex

/-!
# Faults

A machine can fail in four ways: it meets an opcode that it does not implement, it addresses
a memory word that does not exist, it is given a program that does not fit its memory, or it
is about to fetch from an odd address. A `Fault` names the cause with the numbers involved,
and `Fault.message` is the sentence that reports it.
-/

namespace Smolisa

/-- The cause of a failure. -/
inductive Fault
  /-- The machine does not execute the opcode of the instruction at `ip`. -/
  | unknownOpcode (opcode : UInt8) (ip : Word)
  /-- There is no memory word with this index. -/
  | outOfBoundsAddress (index capacity : Nat)
  /-- The program image has more words than the memory. -/
  | imageTooLarge (length capacity : Nat)
  /-- The instruction pointer is odd. -/
  | misalignedFetch (ip : Word)
  deriving DecidableEq

/-- The stage of operation that a fault belongs to. -/
inductive FaultClass
  | decode
  | memory
  | load
  deriving DecidableEq

namespace Fault

/-- The stage of operation that a fault belongs to. -/
def faultClass : Fault → FaultClass
  | unknownOpcode .. => .decode
  | outOfBoundsAddress .. => .memory
  | imageTooLarge .. => .load
  | misalignedFetch .. => .memory

/-- The sentence that reports a fault. -/
def message : Fault → String
  | unknownOpcode opcode ip =>
      "unknown opcode " ++ Hex.ofNibble opcode ++ " at ip " ++ Hex.ofWord ip
  | outOfBoundsAddress index capacity =>
      "memory word index " ++ index.repr ++ " is outside capacity " ++ capacity.repr
  | imageTooLarge length capacity =>
      "program image of " ++ length.repr ++ " words exceeds memory capacity " ++ capacity.repr
  | misalignedFetch ip =>
      "instruction pointer " ++ Hex.ofWord ip ++ " is not word aligned"

end Fault

end Smolisa
