import Smolisa.Word.Basic

/-!
# Lane Masks

A write to a register or to a memory word reaches some of its two byte lanes and leaves the
others as they were. A `LaneMask` says which: none, the low one, the high one, or both. It
has a two-bit code (bit 0 for the low lane, bit 1 for the high one), a bit pattern that
covers its lanes, and it merges new data into an old word.

## Main results

* `LaneMask.byte_merge` — **the lane view of a merge.** Each byte of the merged word comes
  from the new data where the mask covers its lane, and from the old word elsewhere.
* `LaneMask.covers_union` — the union of two masks covers what either of them covers.
-/

namespace Smolisa

/-- The byte lanes that a write reaches. -/
inductive LaneMask
  | none
  | low
  | high
  | both
  deriving DecidableEq, Inhabited

namespace LaneMask

/-- The two-bit code of a mask. -/
def bits : LaneMask → UInt8
  | none => 0
  | low => 1
  | high => 2
  | both => 3

/-- The mask with a given code; only the two low bits of the code are looked at. -/
def ofBits (code : UInt8) : LaneMask :=
  match code.toNat % 4 with
  | 0 => none
  | 1 => low
  | 2 => high
  | _ => both

/-- The bit pattern of a mask: all ones in the lanes it covers, zeros elsewhere. -/
def lanes : LaneMask → Word
  | none => 0x0000
  | low => 0x00FF
  | high => 0xFF00
  | both => 0xFFFF

/-- The mask that covers the lanes of either mask. -/
def union (m n : LaneMask) : LaneMask :=
  ofBits (m.bits ||| n.bits)

/-- The word that holds `data` in the lanes of the mask and `old` in the others. -/
def merge (m : LaneMask) (old data : Word) : Word :=
  (old &&& ~~~m.lanes) ||| (data &&& m.lanes)

/-- Whether a mask covers a lane. -/
def covers : LaneMask → Lane → Bool
  | none, _ => false
  | low, .low => true
  | low, .high => false
  | high, .low => false
  | high, .high => true
  | both, _ => true

@[simp] theorem ofBits_bits (m : LaneMask) : ofBits m.bits = m := by
  cases m <;> rfl

/-- The union of two masks covers what either of them covers. -/
@[simp] theorem covers_union (m n : LaneMask) (lane : Lane) :
    (m.union n).covers lane = (m.covers lane || n.covers lane) := by
  cases m <;> cases n <;> cases lane <;> rfl

@[simp] theorem byte_lanes (m : LaneMask) (lane : Lane) :
    m.lanes.byte lane = if m.covers lane then 0xFF else 0 := by
  cases m <;> cases lane <;> rfl

@[simp] theorem byte_compl_lanes (m : LaneMask) (lane : Lane) :
    (~~~m.lanes).byte lane = if m.covers lane then 0 else 0xFF := by
  cases m <;> cases lane <;> rfl

/-- **The lane view of a merge.** Each byte comes from the data where the mask covers its
lane, and from the old word elsewhere. -/
@[simp] theorem byte_merge (m : LaneMask) (old data : Word) (lane : Lane) :
    (m.merge old data).byte lane = if m.covers lane then data.byte lane else old.byte lane := by
  have full (b : UInt8) : b &&& 255 = b := UInt8.and_neg_one
  by_cases h : m.covers lane <;> simp [merge, h, full]

/-- The empty mask leaves the old word as it was. -/
@[simp] theorem merge_none (old data : Word) : none.merge old data = old :=
  Word.byte_ext fun lane => by simp [covers]

/-- The full mask replaces the old word. -/
@[simp] theorem merge_both (old data : Word) : both.merge old data = data :=
  Word.byte_ext fun lane => by simp [covers]

/-- Merging the same data again changes nothing. -/
@[simp] theorem merge_merge (m : LaneMask) (old data : Word) :
    m.merge old (m.merge old data) = m.merge old data :=
  Word.byte_ext fun lane => by by_cases h : m.covers lane <;> simp [h]

end LaneMask

end Smolisa
