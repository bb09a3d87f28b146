/-!
# Statistics

A machine counts the instructions that it retires and the clock cycles that they take. Their
quotient is the usual figure of merit, the average number of cycles per instruction.

The counters are idealised. A real machine has 64 bits for each of them; here they are natural
numbers, which never overflow. What is said about the values of counters holds of a real machine as
long as its own have not overflowed. Nothing else depends on them, since no instruction reads one.
-/

namespace Smolisa

/-- The counters of a machine, idealised as numbers that do not overflow. -/
structure Stats where
  /-- The number of instructions retired. -/
  instructions : Nat
  /-- The number of clock cycles that they took. -/
  cycles : Nat
  deriving DecidableEq

namespace Stats

/-- The counters after a reset. -/
def zero : Stats :=
  ⟨0, 0⟩

/-- Counts one more instruction, of a given number of cycles. -/
def retire (s : Stats) (cycles : Nat) : Stats :=
  ⟨s.instructions + 1, s.cycles + cycles⟩

/-- The average number of cycles per instruction: both counters are rounded to binary64 and
then divided. There is no average before the first instruction. -/
def averageCpi (s : Stats) : Option Float :=
  if s.instructions = 0 then
    none
  else
    some (s.cycles.toUInt64.toFloat / s.instructions.toUInt64.toFloat)

end Stats

end Smolisa
