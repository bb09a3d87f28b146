import Smolisa.Register.Basic
import Smolisa.Word.Lanes

/-!
# The Register File

A register file holds one word for each of the sixteen registers. Reading names a register;
writing names a register, a word and the byte lanes that the write reaches.

## Main results

* `RegisterFile.ext_get` — a register file is determined by what its registers hold.
* `RegisterFile.get_write` — **a masked write, seen register by register.** The register
  written holds the merged word, and every other register what it held before.
-/

namespace Smolisa

/-- The contents of the sixteen registers. -/
structure RegisterFile where
  /-- The words held, by register index. -/
  cells : Vector Word 16
  deriving DecidableEq

namespace RegisterFile

/-- The register file after a reset: every register holds zero. -/
def zero : RegisterFile :=
  ⟨Vector.replicate 16 0⟩

/-- The word that a register holds. -/
def get (regs : RegisterFile) (r : Register) : Word :=
  regs.cells[r.index]

/-- The instruction pointer: the byte address of the instruction to fetch next. -/
def ip (regs : RegisterFile) : Word :=
  regs.get .ip

/-- Writes a word to the lanes of a register that the mask covers. -/
def write (regs : RegisterFile) (r : Register) (data : Word) (mask : LaneMask) : RegisterFile :=
  ⟨regs.cells.set r.index (mask.merge (regs.get r) data) r.index.isLt⟩

/-- The words held, in the order of the register indices. -/
def toList (regs : RegisterFile) : List Word :=
  regs.cells.toList

/-- A register file is determined by what its registers hold. -/
theorem ext_get {a b : RegisterFile} (h : ∀ r, a.get r = b.get r) : a = b := by
  obtain ⟨a⟩ := a
  obtain ⟨b⟩ := b
  congr 1
  refine Vector.ext fun i hi => ?_
  simpa [get] using h (Register.ofIndex ⟨i, hi⟩)

@[simp] theorem get_zero (r : Register) : zero.get r = 0 := by
  simp [zero, get]

/-- **A masked write, seen register by register.** -/
theorem get_write (regs : RegisterFile) (r s : Register) (data : Word) (mask : LaneMask) :
    (regs.write r data mask).get s =
      if s = r then mask.merge (regs.get r) data else regs.get s := by
  by_cases h : s = r
  · subst h
    simp [write, get]
  · have hne : r.index.val ≠ s.index.val := fun e => h (Register.index_inj.1 (Fin.ext e)).symm
    simp [write, get, h, hne]

@[simp] theorem get_write_self (regs : RegisterFile) (r : Register) (data : Word)
    (mask : LaneMask) : (regs.write r data mask).get r = mask.merge (regs.get r) data := by
  simp [get_write]

/-- A write leaves every register but its own as it was. -/
theorem get_write_of_ne {r s : Register} (h : s ≠ r) (regs : RegisterFile) (data : Word)
    (mask : LaneMask) : (regs.write r data mask).get s = regs.get s := by
  simp [get_write, h]

/-- A write on top of a whole one merges into its data. -/
theorem write_write_self (regs : RegisterFile) (r : Register) (first second : Word)
    (mask : LaneMask) :
    (regs.write r first .both).write r second mask =
      regs.write r (mask.merge first second) .both :=
  ext_get fun s => by by_cases hs : s = r <;> simp [get_write, hs]

/-- Writing the whole register that a write leaves behind does what the write did. -/
theorem write_get_write (regs : RegisterFile) (r : Register) (data : Word) (mask : LaneMask) :
    regs.write r ((regs.write r data mask).get r) mask = regs.write r data mask := by
  rw [get_write_self, write, LaneMask.merge_merge, ← write]

/-- A write through the empty mask changes nothing. -/
@[simp] theorem write_none (regs : RegisterFile) (r : Register) (data : Word) :
    regs.write r data .none = regs :=
  ext_get fun s => by
    rw [get_write]
    split <;> simp_all

end RegisterFile

end Smolisa
