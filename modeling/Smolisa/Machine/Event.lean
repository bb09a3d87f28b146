import Smolisa.Cycle.Datapath

/-!
# Trace Events

An observer of a machine sees what each step did to it: the instruction that was fetched, the
writes that were committed, and the retirement with its cycle count; or, of a step that
failed, the fault and nothing else.
-/

namespace Smolisa

/-- What a retired instruction reports. -/
structure Retirement where
  /-- The address it was fetched from. -/
  ip : Word
  /-- The instruction word. -/
  word : Word
  /-- The number of clock cycles it took. -/
  cycles : Nat
  deriving DecidableEq

/-- Something that an observer of a machine sees happen. -/
inductive Event
  /-- An instruction word was fetched. -/
  | fetched (ip word : Word)
  /-- Some lanes of a memory word were written; the data is the whole word afterwards. -/
  | memoryWritten (write : MemoryWrite)
  /-- Some lanes of a register were written; the data is the whole register afterwards. -/
  | registerWritten (write : RegisterWrite)
  /-- The instruction fetched last has taken effect. -/
  | retired (ip : Word) (cycles : Nat)
  /-- The machine has stopped with a fault. -/
  | faultRaised (fault : Fault)
  deriving DecidableEq

end Smolisa
