import Smolisa.Proofs.Action

/-!
# The Last Writer of a Lane

A masked write reaches some lanes of one cell and leaves everything else as it was. So after any
number of writes to a register file or a memory, each byte is that of the last write which reached
its lane, and a lane that no write has reached holds what it held at first. A load of a program
image that fits counts as a write to every lane of every word. Calls that fail count for nothing.

Which lanes two writes reach is then all there is to know about their order. If they share none,
they may be exchanged.

## Main results

* `foldl_eq_latest` — what one step sets or keeps, a list of steps leaves at what the last one set.
* `RegisterFile.byte_writeAll` and `Memory.byte_updateAll` — the lanes after any number of writes.
* `RegisterFile.writeAll_append_comm` and `Memory.updateAll_append_comm` — writes that share no lane
  commute.
* `masked_writes_last_writer_wins` — **masked writes are per-byte last-writer-wins.**
-/

namespace Smolisa

/-! ### The latest of a list of events -/

section Latest

variable {α β : Type} {f : α → Option β}

/-- The value that the last of some events gives, among those that give one at all. If none does, it
is the initial value. -/
def latest (f : α → Option β) (events : List α) (initial : β) : β :=
  (events.filterMap f).getLast?.getD initial

/-- An event in front sets what the later ones start from. -/
theorem latest_cons (event : α) (rest : List α) (initial : β) :
    latest f (event :: rest) initial = latest f rest ((f event).getD initial) := by
  cases h : f event with
  | none => simp [latest, h]
  | some b => simp [latest, h, List.getLast?_cons]

/-- The first of two lists of events sets what the second one starts from. -/
theorem latest_append (first second : List α) (initial : β) :
    latest f (first ++ second) initial = latest f second (latest f first initial) := by
  induction first generalizing initial with
  | nil => rfl
  | cons event rest ih => rw [List.cons_append, latest_cons, latest_cons, ih]

/-- Events that give no value leave the initial one. -/
theorem latest_of_forall_none {events : List α} (h : ∀ x ∈ events, f x = none) (initial : β) :
    latest f events initial = initial := by
  rw [latest, List.filterMap_eq_nil_iff.2 h]
  rfl

/-- What events leave is what one of them gives, or the initial value if none gives any. -/
theorem latest_cases (events : List α) (initial : β) :
    ((∀ x ∈ events, f x = none) ∧ latest f events initial = initial) ∨
      ∃ x ∈ events, f x = some (latest f events initial) := by
  cases hlast : (events.filterMap f).getLast? with
  | none =>
      have hnone := List.filterMap_eq_nil_iff.1 (List.getLast?_eq_none_iff.1 hlast)
      exact .inl ⟨hnone, latest_of_forall_none hnone initial⟩
  | some b =>
      rw [latest, hlast]
      exact .inr (List.mem_filterMap.1 (List.mem_of_getLast? hlast))

/-- Two lists of events may be exchanged if no event of one and no event of the other both give a
value. -/
theorem latest_append_comm {first second : List α}
    (h : ∀ x ∈ first, ∀ y ∈ second, f x = none ∨ f y = none) (initial : β) :
    latest f (first ++ second) initial = latest f (second ++ first) initial := by
  -- At most one of the two lists gives values at all, and the other one may stand anywhere.
  by_cases hfirst : ∀ x ∈ first, f x = none
  · rw [latest_append, latest_append, latest_of_forall_none hfirst, latest_of_forall_none hfirst]
  · obtain ⟨x, hx, hsome⟩ : ∃ x ∈ first, f x ≠ none := by simpa using hfirst
    have hsecond : ∀ y ∈ second, f y = none := fun y hy => (h x hx y hy).resolve_left hsome
    rw [latest_append, latest_append, latest_of_forall_none hsecond,
      latest_of_forall_none hsecond]

/-- **What one step sets or keeps, a list of steps leaves at what the last one set.** The states may
have a property that the steps preserve and that is needed to look at them. -/
theorem foldl_eq_latest {σ : Type} {step : σ → α → σ} (P : σ → Prop) (view : σ → β)
    (keeps : ∀ s x, P s → P (step s x))
    (sets : ∀ s x, P s → view (step s x) = (f x).getD (view s)) {s : σ} (h : P s)
    (events : List α) : view (events.foldl step s) = latest f events (view s) := by
  induction events generalizing s with
  | nil => rfl
  | cons event rest ih => rw [List.foldl_cons, ih (keeps s event h), sets s event h, latest_cons]

end Latest

/-! ### The lanes that a write reaches -/

/-- The byte that a masked write of a word puts into a lane of its cell, if the mask covers the
lane. -/
def LaneMask.byte? (mask : LaneMask) (data : Word) (lane : Lane) : Option UInt8 :=
  if mask.covers lane then some (data.byte lane) else Option.none

/-- A merge sets the lanes that its mask covers and keeps the others. -/
theorem LaneMask.byte_merge_eq_getD (mask : LaneMask) (old data : Word) (lane : Lane) :
    (mask.merge old data).byte lane = (mask.byte? data lane).getD (old.byte lane) := by
  rw [byte_merge, byte?]
  split <;> rfl

namespace RegisterWrite

/-- The write reaches a lane of a register. -/
def Reaches (w : RegisterWrite) (r : Register) (lane : Lane) : Prop :=
  w.register = r ∧ w.mask.covers lane = true

/-- The byte that a write puts into a lane of a register, if it reaches the lane. -/
def byte? (r : Register) (lane : Lane) (w : RegisterWrite) : Option UInt8 :=
  if w.register = r then w.mask.byte? w.data lane else none

/-- A write that does not reach a lane puts nothing there. -/
theorem byte?_eq_none_iff {r : Register} {lane : Lane} {w : RegisterWrite} :
    w.byte? r lane = none ↔ ¬ w.Reaches r lane := by
  by_cases hr : w.register = r <;> simp [byte?, Reaches, LaneMask.byte?, hr]

/-- A write that reaches a lane puts the byte of its data there. -/
theorem byte?_eq_some_iff {r : Register} {lane : Lane} {w : RegisterWrite} {b : UInt8} :
    w.byte? r lane = some b ↔ w.Reaches r lane ∧ w.data.byte lane = b := by
  by_cases hr : w.register = r <;> simp [byte?, Reaches, LaneMask.byte?, hr]

end RegisterWrite

namespace MemoryWrite

/-- The write reaches a lane of the word at an index. -/
def Reaches (w : MemoryWrite) (i : Nat) (lane : Lane) : Prop :=
  w.index = i ∧ w.mask.covers lane = true

/-- The byte that a write puts into a lane of the word at an index, if it reaches the lane. -/
def byte? (i : Nat) (lane : Lane) (w : MemoryWrite) : Option UInt8 :=
  if w.index = i then w.mask.byte? w.data lane else none

/-- A write that does not reach a lane puts nothing there. -/
theorem byte?_eq_none_iff {i : Nat} {lane : Lane} {w : MemoryWrite} :
    w.byte? i lane = none ↔ ¬ w.Reaches i lane := by
  by_cases hi : w.index = i <;> simp [byte?, Reaches, LaneMask.byte?, hi]

end MemoryWrite

/-! ### Registers -/

namespace RegisterFile

/-- Performs a list of writes in order. -/
def writeAll (regs : RegisterFile) (writes : List RegisterWrite) : RegisterFile :=
  writes.foldl (fun regs w => regs.write w.register w.data w.mask) regs

/-- One write, seen lane by lane. -/
theorem byte_write (regs : RegisterFile) (w : RegisterWrite) (r : Register) (lane : Lane) :
    ((regs.write w.register w.data w.mask).get r).byte lane =
      (w.byte? r lane).getD ((regs.get r).byte lane) := by
  rw [get_write, RegisterWrite.byte?]
  by_cases hr : w.register = r
  · subst hr
    rw [if_pos rfl, if_pos rfl, LaneMask.byte_merge_eq_getD]
  · rw [if_neg (Ne.symm hr), if_neg hr, Option.getD_none]

/-- **The lanes of registers after any number of writes.** -/
theorem byte_writeAll (regs : RegisterFile) (writes : List RegisterWrite) (r : Register)
    (lane : Lane) :
    ((regs.writeAll writes).get r).byte lane =
      latest (RegisterWrite.byte? r lane) writes ((regs.get r).byte lane) :=
  foldl_eq_latest (fun _ => True) (fun regs : RegisterFile => (regs.get r).byte lane)
    (fun _ _ h => h) (fun regs w _ => regs.byte_write w r lane) trivial writes

/-- A register file is determined by the bytes in its lanes. -/
theorem ext_byte {a b : RegisterFile} (h : ∀ r lane, (a.get r).byte lane = (b.get r).byte lane) :
    a = b :=
  ext_get fun r => Word.byte_ext (h r)

/-- Lists of writes that share no lane may be exchanged. -/
theorem writeAll_append_comm (regs : RegisterFile) {first second : List RegisterWrite}
    (h : ∀ v ∈ first, ∀ w ∈ second, ∀ r lane, ¬ (v.Reaches r lane ∧ w.Reaches r lane)) :
    regs.writeAll (first ++ second) = regs.writeAll (second ++ first) := by
  refine ext_byte fun r lane => ?_
  rw [byte_writeAll, byte_writeAll]
  refine latest_append_comm (fun v hv w hw => ?_) _
  rw [RegisterWrite.byte?_eq_none_iff, RegisterWrite.byte?_eq_none_iff]
  exact not_and_or.1 (h v hv w hw r lane)

end RegisterFile

/-! ### Memory -/

/-- A call that is to change memory. -/
inductive MemoryUpdate
  | write (w : MemoryWrite)
  | load (image : Array Word)

namespace MemoryUpdate

/-- The call is a load of an image that fits. -/
def Loads (capacity : Nat) : MemoryUpdate → Prop
  | .write _ => False
  | .load image => image.size ≤ capacity

/-- The byte that a write puts into a lane, if it reaches the lane. -/
def writtenByte? (i : Nat) (lane : Lane) : MemoryUpdate → Option UInt8
  | .write w => w.byte? i lane
  | .load _ => none

/-- The byte that a call puts into a lane: that of a write which reaches the lane, or that of an
image which fits, with zeros behind its end. -/
def byte? (capacity i : Nat) (lane : Lane) : MemoryUpdate → Option UInt8
  | .write w => w.byte? i lane
  | .load image => if image.size ≤ capacity then some ((image[i]?.getD 0).byte lane) else none

/-- Without a load that fits, the bytes that calls put into a lane are those of the writes. -/
theorem latest_byte?_of_not_loads {capacity : Nat} {updates : List MemoryUpdate}
    (h : ∀ u ∈ updates, ¬ u.Loads capacity) (i : Nat) (lane : Lane) (initial : UInt8) :
    latest (byte? capacity i lane) updates initial =
      latest (writtenByte? i lane) updates initial := by
  have same : ∀ u ∈ updates, u.byte? capacity i lane = u.writtenByte? i lane := by
    intro u hu
    cases u with
    | write w => rfl
    | load image => exact if_neg (h _ hu)
  rw [latest, latest, List.filterMap_congr same]

end MemoryUpdate

namespace Memory

/-- What a call makes of memory. -/
def update (m : Memory) : MemoryUpdate → Except Fault Memory
  | .write w => m.write w.index w.data w.mask
  | .load image => m.load image

/-- The memory after a call. One that fails leaves it as it was. -/
def apply (m : Memory) (u : MemoryUpdate) : Memory :=
  match m.update u with
  | .ok m' => m'
  | .error _ => m

/-- The memory after a list of calls. -/
def updateAll (m : Memory) (updates : List MemoryUpdate) : Memory :=
  updates.foldl apply m

/-- A write fails exactly at the capacity or above, whatever its mask is. -/
theorem update_write_eq_error_iff {m : Memory} {w : MemoryWrite} {fault : Fault} :
    m.update (.write w) = .error fault ↔
      m.capacity ≤ w.index ∧ fault = .outOfBoundsAddress w.index m.capacity := by
  rcases Nat.lt_or_ge w.index m.capacity with hlt | hle
  · obtain ⟨m', hm'⟩ := exists_write_of_lt hlt w.data w.mask
    simp [update, hm', Nat.not_le.2 hlt]
  · simp [update, write_of_le hle, hle, eq_comm]

/-- A load fails exactly if the image is longer than memory. -/
theorem update_load_eq_error_iff {m : Memory} {image : Array Word} {fault : Fault} :
    m.update (.load image) = .error fault ↔
      m.capacity < image.size ∧ fault = .imageTooLarge image.size m.capacity := by
  rcases Nat.lt_or_ge m.capacity image.size with hlt | hle
  · simp [update, load_of_lt hlt, hlt, eq_comm]
  · obtain ⟨m', hm'⟩ := exists_load_of_le hle
    simp [update, hm', Nat.not_lt.2 hle]

/-- A call that fails leaves memory as it was. -/
theorem apply_of_error {m : Memory} {u : MemoryUpdate} {fault : Fault}
    (h : m.update u = .error fault) : m.apply u = m := by
  rw [apply, h]

@[simp] theorem capacity_apply (m : Memory) (u : MemoryUpdate) :
    (m.apply u).capacity = m.capacity := by
  rw [apply]
  split
  · next h =>
      cases u with
      | write w => exact capacity_write h
      | load image => exact capacity_load h
  · rfl

/-- One call, seen lane by lane. -/
theorem byte_apply {m : Memory} {i : Nat} (hi : i < m.capacity) (u : MemoryUpdate) (lane : Lane) :
    ((m.apply u).get i).byte lane =
      (u.byte? m.capacity i lane).getD ((m.get i).byte lane) := by
  cases u with
  | write w =>
      rw [MemoryUpdate.byte?, MemoryWrite.byte?]
      rcases Nat.lt_or_ge w.index m.capacity with hlt | hle
      · have happly : m.apply (.write w) =
            m.put w.index (w.mask.merge (m.get w.index) w.data) := by
          rw [apply, update, write_of_lt hlt]
        rw [happly, get_put]
        by_cases hw : w.index = i
        · subst hw
          rw [if_pos ⟨rfl, hlt⟩, if_pos rfl, LaneMask.byte_merge_eq_getD]
        · rw [if_neg (fun h => hw h.1.symm), if_neg hw, Option.getD_none]
      · -- The write fails, and its index is not the one looked at.
        rw [apply_of_error (update_write_eq_error_iff.2 ⟨hle, rfl⟩), if_neg (by omega),
          Option.getD_none]
  | load image =>
      rw [MemoryUpdate.byte?]
      rcases Nat.lt_or_ge m.capacity image.size with hlt | hle
      · rw [apply_of_error (update_load_eq_error_iff.2 ⟨hlt, rfl⟩), if_neg (Nat.not_le.2 hlt),
          Option.getD_none]
      · obtain ⟨m', hm'⟩ := exists_load_of_le hle
        have hread := read_load hm' hi
        rw [read_of_lt ((capacity_load hm').symm ▸ hi)] at hread
        rw [apply, update, hm', if_pos hle, Option.getD_some, Except.ok.inj hread]

/-- Any number of calls keep the capacity. -/
@[simp] theorem capacity_updateAll (m : Memory) (updates : List MemoryUpdate) :
    (m.updateAll updates).capacity = m.capacity := by
  induction updates generalizing m with
  | nil => rfl
  | cons u rest ih => exact (ih (m.apply u)).trans (capacity_apply m u)

/-- **The lanes of memory after any number of calls.** -/
theorem byte_updateAll {m : Memory} {i : Nat} (hi : i < m.capacity) (updates : List MemoryUpdate)
    (lane : Lane) :
    ((m.updateAll updates).get i).byte lane =
      latest (MemoryUpdate.byte? m.capacity i lane) updates ((m.get i).byte lane) := by
  refine foldl_eq_latest (fun m' : Memory => m'.capacity = m.capacity)
    (fun m' : Memory => (m'.get i).byte lane) ?_ ?_ rfl updates
  · intro m' u hcap
    exact (capacity_apply m' u).trans hcap
  · intro m' u hcap
    rw [← hcap] at hi ⊢
    exact byte_apply hi u lane

/-- Two memories are equal if they have the same capacity and the same bytes in their lanes. -/
theorem ext_byte {a b : Memory} (hcap : a.capacity = b.capacity)
    (h : ∀ i, i < a.capacity → ∀ lane, (a.get i).byte lane = (b.get i).byte lane) : a = b :=
  ext_get hcap fun i hi => Word.byte_ext (h i hi)

/-- Lists of writes that share no lane may be exchanged. -/
theorem updateAll_append_comm (m : Memory) {first second : List MemoryWrite}
    (h : ∀ v ∈ first, ∀ w ∈ second, ∀ i lane, ¬ (v.Reaches i lane ∧ w.Reaches i lane)) :
    m.updateAll ((first ++ second).map .write) = m.updateAll ((second ++ first).map .write) := by
  refine ext_byte (by simp) fun i hi lane => ?_
  rw [capacity_updateAll] at hi
  rw [byte_updateAll hi, byte_updateAll hi, List.map_append, List.map_append]
  refine latest_append_comm ?_ _
  simp only [List.forall_mem_map, MemoryUpdate.byte?, MemoryWrite.byte?_eq_none_iff]
  exact fun v hv w hw => not_and_or.1 (h v hv w hw i lane)

/-- A write through the empty mask changes nothing, wherever it goes. -/
theorem apply_write_none (m : Memory) (index : Nat) (data : Word) :
    m.apply (.write ⟨index, data, .none⟩) = m := by
  refine ext_byte (capacity_apply _ _) fun i hi lane => ?_
  rw [capacity_apply] at hi
  rw [byte_apply hi, MemoryUpdate.byte?, MemoryWrite.byte?_eq_none_iff.2, Option.getD_none]
  exact fun h => Bool.false_ne_true h.2

end Memory

/-- **Masked writes are per-byte last-writer-wins.** Each lane of a register, after any writes to
the register file, is that of the data of the last write that reaches it, and what it was at first
if none does. For memory, take any writes and loads, failing ones included. The capacity is then
still the same. A write fails exactly if its index is not below the capacity, whatever its mask is,
and a load if its image is longer than the capacity; a call that fails changes nothing. Below the
capacity every word can be read. If no load has succeeded, then its lanes are those of the last
writes that reach them, or the initial ones; and otherwise those of the last writes behind the last
load that has succeeded, or those of its image, which is zero behind its end. At the capacity or
above, a read reports its index and the capacity.

Hence writes that share no lane commute, and a write through the empty mask changes nothing. -/
theorem masked_writes_last_writer_wins :
    (∀ (regs : RegisterFile) (writes : List RegisterWrite) (r : Register) (lane : Lane),
      ((regs.writeAll writes).get r).byte lane =
        latest (RegisterWrite.byte? r lane) writes ((regs.get r).byte lane)) ∧
    (∀ (m : Memory) (updates : List MemoryUpdate),
      (m.updateAll updates).capacity = m.capacity ∧
      (∀ w fault, (m.updateAll updates).update (.write w) = .error fault ↔
        m.capacity ≤ w.index ∧ fault = .outOfBoundsAddress w.index m.capacity) ∧
      (∀ image fault, (m.updateAll updates).update (.load image) = .error fault ↔
        m.capacity < image.size ∧ fault = .imageTooLarge image.size m.capacity) ∧
      (∀ u fault, (m.updateAll updates).update u = .error fault →
        m.updateAll (updates ++ [u]) = m.updateAll updates) ∧
      (∀ i < m.capacity, ∃ old word,
        m.read i = .ok old ∧ (m.updateAll updates).read i = .ok word ∧
        ((∀ u ∈ updates, ¬ u.Loads m.capacity) → ∀ lane,
          word.byte lane =
            latest (MemoryUpdate.writtenByte? i lane) updates (old.byte lane)) ∧
        ∀ front image back, updates = front ++ .load image :: back → image.size ≤ m.capacity →
          (∀ u ∈ back, ¬ u.Loads m.capacity) → ∀ lane,
            word.byte lane =
              latest (MemoryUpdate.writtenByte? i lane) back ((image[i]?.getD 0).byte lane)) ∧
      ∀ i, m.capacity ≤ i →
        (m.updateAll updates).read i = .error (.outOfBoundsAddress i m.capacity)) ∧
    (∀ (regs : RegisterFile) (first second : List RegisterWrite),
      (∀ v ∈ first, ∀ w ∈ second, ∀ r lane, ¬ (v.Reaches r lane ∧ w.Reaches r lane)) →
      regs.writeAll (first ++ second) = regs.writeAll (second ++ first)) ∧
    (∀ (m : Memory) (first second : List MemoryWrite),
      (∀ v ∈ first, ∀ w ∈ second, ∀ i lane, ¬ (v.Reaches i lane ∧ w.Reaches i lane)) →
      m.updateAll ((first ++ second).map .write) = m.updateAll ((second ++ first).map .write)) ∧
    (∀ (regs : RegisterFile) r data, regs.write r data .none = regs) ∧
    ∀ (m : Memory) index data, m.updateAll [.write ⟨index, data, .none⟩] = m := by
  refine ⟨RegisterFile.byte_writeAll, fun m updates => ?_,
    fun regs _ _ => regs.writeAll_append_comm, fun m _ _ => m.updateAll_append_comm,
    RegisterFile.write_none, Memory.apply_write_none⟩
  have hcap := m.capacity_updateAll updates
  refine ⟨hcap, fun w fault => ?_, fun image fault => ?_, fun u fault h => ?_, fun i hi => ?_,
    fun i hi => ?_⟩
  · rw [Memory.update_write_eq_error_iff, hcap]
  · rw [Memory.update_load_eq_error_iff, hcap]
  · rw [Memory.updateAll, List.foldl_append]
    exact Memory.apply_of_error h
  · refine ⟨m.get i, (m.updateAll updates).get i, Memory.read_of_lt hi,
      Memory.read_of_lt (hcap.symm ▸ hi), fun hno lane => ?_, ?_⟩
    · rw [Memory.byte_updateAll hi, MemoryUpdate.latest_byte?_of_not_loads hno]
    · rintro front image back rfl hfits hno lane
      rw [Memory.byte_updateAll hi, latest_append, latest_cons,
        MemoryUpdate.latest_byte?_of_not_loads hno, MemoryUpdate.byte?, if_pos hfits,
        Option.getD_some]
  · rw [Memory.read_of_le (hcap.symm ▸ hi), hcap]

/-- A word of a memory of two words, behind a load that fits, two writes to one lane of the word
each, a load and a write that fail, and a write through the empty mask. -/
theorem masked_writes_last_writer_wins_reloaded :
    let m : Memory := ⟨#[0x1111, 0x2222]⟩
    let front : List MemoryUpdate := [.write ⟨1, 0x3333, .both⟩]
    let back : List MemoryUpdate := [.write ⟨1, 0x4455, .high⟩, .load #[1, 2, 3],
      .write ⟨9, 0, .both⟩, .write ⟨1, 0x6677, .none⟩, .write ⟨1, 0x8899, .low⟩]
    m.capacity = 2 ∧ (∀ u ∈ back, ¬ u.Loads m.capacity) ∧
      ∃ word, (m.updateAll (front ++ .load #[0xAAAA, 0xBBBB] :: back)).read 1 = .ok word ∧
        word.byte .high = 0x44 ∧ word.byte .low = 0x99 := by
  intro m front back
  have hno : ∀ u ∈ back, ¬ u.Loads m.capacity := by
    simp [back, MemoryUpdate.Loads, m, Memory.capacity]
  obtain ⟨-, hmemory, -⟩ := masked_writes_last_writer_wins
  obtain ⟨-, -, -, -, hbelow, -⟩ := hmemory m (front ++ .load #[0xAAAA, 0xBBBB] :: back)
  obtain ⟨_, word, -, hread, -, hloaded⟩ := hbelow 1 (by decide)
  have hlanes := hloaded front _ back rfl (by decide) hno
  exact ⟨rfl, hno, word, hread, hlanes .high, hlanes .low⟩

end Smolisa
