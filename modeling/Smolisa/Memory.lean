import Smolisa.Fault
import Smolisa.Word.Lanes

/-!
# Main Memory

Main memory is a fixed number of words. Registers hold byte addresses; the lowest bit of
an address is dropped to find the index of the word it lies in. Reading and
writing fail outside the capacity; loading a program image fails if the image is longer than
the memory, and otherwise fills the words behind the image with zeros.

## Main results

* `Memory.read_eq_ok_iff` and `Memory.read_of_le` — **when a read succeeds.** It gives the
  word below the capacity and reports the index and the capacity elsewhere.
* `Memory.read_load` — after a load the words of the image are read, and zeros behind them.
* `Memory.capacity_write` and `Memory.capacity_load` — the capacity never changes.
-/

namespace Smolisa

/-- The contents of main memory. -/
structure Memory where
  /-- The words held, by word index. -/
  words : Array Word
  deriving DecidableEq

namespace Memory

/-- The number of words of the default memory. -/
def defaultCapacity : Nat := 1024

/-- The index of the word in which a byte address lies. -/
def wordIndex (addr : Word) : Nat :=
  (addr >>> 1).toNat

/-- A memory of a given capacity that holds zeros. -/
def zero (capacity : Nat) : Memory :=
  ⟨Array.replicate capacity 0⟩

/-- The number of words that a memory holds. -/
def capacity (m : Memory) : Nat :=
  m.words.size

/-- The word at an index. -/
def read (m : Memory) (index : Nat) : Except Fault Word :=
  if h : index < m.words.size then
    .ok m.words[index]
  else
    .error (.outOfBoundsAddress index m.capacity)

/-- Writes a word to the lanes of the cell at an index that the mask covers. -/
def write (m : Memory) (index : Nat) (data : Word) (mask : LaneMask) : Except Fault Memory :=
  if h : index < m.words.size then
    .ok ⟨m.words.set index (mask.merge m.words[index] data)⟩
  else
    .error (.outOfBoundsAddress index m.capacity)

/-- Replaces the contents by a program image followed by zeros. -/
def load (m : Memory) (image : Array Word) : Except Fault Memory :=
  if image.size ≤ m.capacity then
    .ok ⟨image ++ Array.replicate (m.capacity - image.size) 0⟩
  else
    .error (.imageTooLarge image.size m.capacity)

@[simp] theorem capacity_zero (capacity : Nat) : (zero capacity).capacity = capacity := by
  simp [zero, Memory.capacity]

/-- A byte address names one of the `2 ^ 15` words that addresses can reach. -/
theorem wordIndex_eq (addr : Word) : wordIndex addr = addr.toNat / 2 := by
  simp [wordIndex, Nat.shiftRight_eq_div_pow]

/-! ### Reading -/

/-- A read succeeds exactly below the capacity, with the word held there. -/
theorem read_eq_ok_iff {m : Memory} {index : Nat} {w : Word} :
    m.read index = .ok w ↔ m.words[index]? = some w := by
  rw [read]
  split <;> simp_all

/-- A read at the capacity or above reports the index and the capacity. -/
theorem read_of_le {m : Memory} {index : Nat} (h : m.capacity ≤ index) :
    m.read index = .error (.outOfBoundsAddress index m.capacity) :=
  dif_neg (Nat.not_lt.2 h)

/-- A read below the capacity succeeds. -/
theorem exists_read_of_lt {m : Memory} {index : Nat} (h : index < m.capacity) :
    ∃ w, m.read index = .ok w :=
  ⟨_, dif_pos h⟩

/-! ### Writing -/

/-- A write below the capacity succeeds. -/
theorem exists_write_of_lt {m : Memory} {index : Nat} (h : index < m.capacity) (data : Word)
    (mask : LaneMask) : ∃ m', m.write index data mask = .ok m' :=
  ⟨_, dif_pos h⟩

/-- A write at the capacity or above reports the index and the capacity. -/
theorem write_of_le {m : Memory} {index : Nat} (h : m.capacity ≤ index) (data : Word)
    (mask : LaneMask) :
    m.write index data mask = .error (.outOfBoundsAddress index m.capacity) :=
  dif_neg (Nat.not_lt.2 h)

/-- A write keeps the capacity. -/
theorem capacity_write {m m' : Memory} {index : Nat} {data : Word} {mask : LaneMask}
    (h : m.write index data mask = .ok m') : m'.capacity = m.capacity := by
  rw [write] at h
  split at h
  · cases h
    simp [capacity]
  · cases h

/-! ### Loading -/

/-- An image that fits is loaded. -/
theorem exists_load_of_le {m : Memory} {image : Array Word} (h : image.size ≤ m.capacity) :
    ∃ m', m.load image = .ok m' :=
  ⟨_, if_pos h⟩

/-- An image that does not fit is rejected with both lengths. -/
theorem load_of_lt {m : Memory} {image : Array Word} (h : m.capacity < image.size) :
    m.load image = .error (.imageTooLarge image.size m.capacity) :=
  if_neg (Nat.not_le.2 h)

/-- A load keeps the capacity. -/
theorem capacity_load {m m' : Memory} {image : Array Word} (h : m.load image = .ok m') :
    m'.capacity = m.capacity := by
  rw [load] at h
  split at h
  · cases h
    simp [capacity] at *
    omega
  · cases h

/-- After a load the words of the image are read, and zeros behind them. -/
theorem read_load {m m' : Memory} {image : Array Word} (h : m.load image = .ok m') {i : Nat}
    (hi : i < m.capacity) : m'.read i = .ok (image[i]?.getD 0) := by
  rw [load] at h
  split at h
  · cases h
    rw [read_eq_ok_iff]
    simp only [capacity] at hi
    by_cases hlt : i < image.size
    · simp [Array.getElem?_append, hlt]
    · have hz : i - image.size < m.words.size - image.size := by omega
      simp [Array.getElem?_append, hlt, capacity, hz]
  · cases h

end Memory

end Smolisa
