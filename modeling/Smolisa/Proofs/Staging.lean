import Smolisa.Proofs.LastWriter

/-!
# What a Staging Remembers

A staging takes in the effects of one cycle after the other and keeps three things. The working copy
has every register write performed. The record has one entry for each register that was written,
however often, and the memory write that waits is the last one. Of these the record is the one that
could go wrong, since it is kept beside the working copy and not read off it. A second write to a
register may reach other lanes than the first one, the same ones, or none at all.

What holds of the record after every cycle is that its entries are the registers in the order of
their first writes, that an entry holds the word of the working copy, and that its mask covers the
lanes of all writes to its register. From this alone it follows that the record can stand for the
writes: performed on the registers of the start, in any order, it gives the working copy.

## Main results

* `RegisterWrite.mem_record` — what recording a write does to the entries.
* `Staging.Records.stageRegister` — one more write keeps the record in step with the working copy.
* `Staging.Records.writeAll_eq` — the record stands for the writes.
* `Staging.merges_faithfully` — **staging merges any sequence of effects faithfully.**
-/

namespace Smolisa

/-! ### Repetitions in a list -/

section EraseDups

variable {α : Type} [DecidableEq α]

/-- An element behind a list is a repetition exactly if the list has it. -/
theorem eraseDups_concat (l : List α) (a : α) :
    (l ++ [a]).eraseDups = if a ∈ l then l.eraseDups else l.eraseDups ++ [a] := by
  rw [List.eraseDups_append, List.cons_removeAll, List.nil_removeAll]
  by_cases h : a ∈ l
  · simp [h]
  · simp [h, List.eraseDups_cons]

/-- Without its repetitions, a list has nothing twice. -/
theorem nodup_eraseDups (l : List α) : l.eraseDups.Nodup := by
  induction l using List.reverseRecOn with
  | nil => exact List.nodup_nil
  | append_singleton l a ih =>
      rw [eraseDups_concat]
      split
      · exact ih
      · next h =>
          rw [← List.concat_eq_append]
          exact ih.concat (mt List.mem_eraseDups.1 h)

end EraseDups

/-! ### Recording a write -/

/-- The empty mask adds no lane to another one. -/
theorem LaneMask.none_union (mask : LaneMask) : none.union mask = mask := by
  rw [union, bits, UInt8.zero_or, ofBits_bits]

namespace RegisterWrite

variable {v w : RegisterWrite} {writes : List RegisterWrite}

/-- The registers of the record after one more write. -/
theorem map_register_record (w : RegisterWrite) (writes : List RegisterWrite) :
    (w.record writes).map register =
      if w.register ∈ writes.map register then writes.map register
      else writes.map register ++ [w.register] := by
  split
  · next h => exact record_of_mem (List.mem_map.1 h)
  · next h =>
      rw [record_of_not_mem fun v hv heq => h (List.mem_map.2 ⟨v, hv, heq⟩), List.map_append]
      rfl

/-- **What recording a write does to the entries.** An entry of another register is kept, one of the
register of the write is widened and has its data replaced, and if there is none, the write is
recorded as it is. -/
theorem mem_record (hnodup : (writes.map register).Nodup) (h : v ∈ w.record writes) :
    (v ∈ writes ∧ v.register ≠ w.register) ∨
    (∃ u ∈ writes, u.register = w.register ∧ v = { w with mask := u.mask.union w.mask }) ∨
    (v = w ∧ w.register ∉ writes.map register) := by
  induction writes with
  | nil => exact .inr (.inr ⟨List.mem_singleton.1 h, List.not_mem_nil⟩)
  | cons u rest ih =>
      rw [List.map_cons, List.nodup_cons] at hnodup
      obtain ⟨hu, hrest⟩ := hnodup
      rw [record] at h
      split at h
      · next heq =>
          rcases List.mem_cons.1 h with rfl | hv
          · exact .inr (.inl ⟨u, List.mem_cons_self, heq, by rw [heq]⟩)
          · -- The entry is another one than the one found, and so of another register.
            refine .inl ⟨List.mem_cons_of_mem _ hv, fun hreg => hu ?_⟩
            exact List.mem_map.2 ⟨v, hv, hreg.trans heq.symm⟩
      · next hne =>
          rcases List.mem_cons.1 h with rfl | hv
          · exact .inl ⟨List.mem_cons_self, hne⟩
          · rcases ih hrest hv with ⟨hmem, hreg⟩ | ⟨u', hmem, hu'⟩ | ⟨rfl, hnew⟩
            · exact .inl ⟨List.mem_cons_of_mem _ hmem, hreg⟩
            · exact .inr (.inl ⟨u', List.mem_cons_of_mem _ hmem, hu'⟩)
            · exact .inr (.inr ⟨rfl, by simp [Ne.symm hne, hnew]⟩)

/-! ### The lanes that writes reach -/

/-- The lanes of a register that some writes reach: the union of the masks of the writes to it. -/
def writtenLanes (writes : List RegisterWrite) (r : Register) : LaneMask :=
  ((writes.filter (·.register = r)).map mask).foldl LaneMask.union .none

/-- One more write adds its mask to the lanes of its register. -/
theorem writtenLanes_concat (writes : List RegisterWrite) (w : RegisterWrite) (r : Register) :
    writtenLanes (writes ++ [w]) r =
      if w.register = r then (writtenLanes writes r).union w.mask else writtenLanes writes r := by
  by_cases hr : w.register = r <;> simp [writtenLanes, hr]

/-- Without a write to a register there are no lanes of it. -/
theorem writtenLanes_of_not_mem {r : Register} (h : r ∉ writes.map register) :
    writtenLanes writes r = .none := by
  have hnil : writes.filter (·.register = r) = [] :=
    List.filter_eq_nil_iff.2 fun w hw heq => h (List.mem_map.2 ⟨w, hw, of_decide_eq_true heq⟩)
  rw [writtenLanes, hnil]
  rfl

/-- The lanes written are those that some write reaches. -/
theorem covers_writtenLanes {r : Register} {lane : Lane} :
    (writtenLanes writes r).covers lane = true ↔ ∃ w ∈ writes, w.Reaches r lane := by
  induction writes using List.reverseRecOn with
  | nil => exact iff_of_false Bool.false_ne_true (by simp)
  | append_singleton writes w ih =>
      rw [writtenLanes_concat]
      split <;> simp_all [Reaches, or_and_right, exists_or]

end RegisterWrite

/-! ### The invariant of the record -/

namespace Staging

open RegisterWrite

/-- The record of a staging is that of some register writes: it has the registers in the order of
their first writes, the words of the working copy, and the lanes of all writes. -/
structure Records (s : Staging) (writes : List RegisterWrite) : Prop where
  order_eq : s.registerWrites.map register = (writes.map register).eraseDups
  data_eq : ∀ v ∈ s.registerWrites, v.data = s.registers.get v.register
  mask_eq : ∀ v ∈ s.registerWrites, v.mask = writtenLanes writes v.register

namespace Records

variable {s : Staging} {writes : List RegisterWrite}

/-- Nothing is recorded at the start. -/
theorem start (regs : RegisterFile) : (Staging.start regs).Records [] :=
  ⟨rfl, by simp [Staging.start], by simp [Staging.start]⟩

/-- No register is recorded twice. -/
theorem nodup (h : s.Records writes) : (s.registerWrites.map register).Nodup :=
  h.order_eq ▸ nodup_eraseDups _

/-- The registers recorded are those written. -/
theorem mem_iff (h : s.Records writes) {r : Register} :
    r ∈ s.registerWrites.map register ↔ r ∈ writes.map register := by
  rw [h.order_eq, List.mem_eraseDups]

/-- **One more write keeps the record in step with the working copy.** -/
theorem stageRegister (h : s.Records writes) (w : RegisterWrite) :
    (s.stageRegister w).Records (writes ++ [w]) := by
  set registers := s.registers.write w.register w.data w.mask with hregisters
  refine ⟨?order, fun v hv => ?data, fun v hv => ?mask⟩
  case order =>
    rw [Staging.stageRegister, map_register_record, List.map_append, List.map_singleton,
      eraseDups_concat]
    simp only [h.order_eq, List.mem_eraseDups]
  case data =>
    change v.data = registers.get v.register
    rcases mem_record h.nodup hv with ⟨hmem, hne⟩ | ⟨u, -, -, rfl⟩ | ⟨rfl, -⟩
    · rw [h.data_eq v hmem, hregisters, RegisterFile.get_write_of_ne hne]
    · rfl
    · rfl
  case mask =>
    rw [writtenLanes_concat]
    rcases mem_record h.nodup hv with ⟨hmem, hne⟩ | ⟨u, hmem, hreg, rfl⟩ | ⟨rfl, hnew⟩
    · rw [if_neg (Ne.symm hne), h.mask_eq v hmem]
    · rw [if_pos rfl, h.mask_eq u hmem, hreg]
    · rw [if_pos rfl, writtenLanes_of_not_mem (mt h.mem_iff.2 hnew)]
      exact (LaneMask.none_union _).symm

/-- The effects of a cycle keep the record in step: its memory write leaves it alone. -/
theorem stage (h : s.Records writes) (e : Effects) :
    (s.stage e).Records (writes ++ e.registerWrite.toList) := by
  rw [Staging.stage]
  cases e.registerWrite with
  | none => cases e.memoryWrite <;> simpa using ⟨h.order_eq, h.data_eq, h.mask_eq⟩
  | some w =>
      obtain ⟨horder, hdata, hmask⟩ := h.stageRegister w
      cases e.memoryWrite <;> exact ⟨horder, hdata, hmask⟩

/-- The effects of any number of cycles keep the record in step. -/
theorem foldl_stage (h : s.Records writes) (effects : List Effects) :
    (effects.foldl Staging.stage s).Records
      (writes ++ effects.filterMap Effects.registerWrite) := by
  induction effects generalizing s writes with
  | nil => simpa using h
  | cons e rest ih =>
      have hrest := ih (h.stage e)
      rw [List.append_assoc] at hrest
      cases he : e.registerWrite <;> simpa [he] using hrest

/-- **The record stands for the writes.** Performed in any order on the registers of the start, it
gives the working copy. -/
theorem writeAll_eq {regs : RegisterFile} (h : s.Records writes)
    (hregisters : s.registers = regs.writeAll writes) {entries : List RegisterWrite}
    (hperm : entries.Perm s.registerWrites) : regs.writeAll entries = s.registers := by
  refine RegisterFile.ext_byte fun r lane => ?_
  rw [RegisterFile.byte_writeAll]
  rcases latest_cases (f := RegisterWrite.byte? r lane) entries ((regs.get r).byte lane) with
    ⟨hnone, heq⟩ | ⟨v, hv, hlatest⟩
  · -- No entry reaches the lane, and so no write does.
    rw [heq, hregisters, RegisterFile.byte_writeAll, latest_of_forall_none fun w hw => ?_]
    rw [RegisterWrite.byte?_eq_none_iff]
    intro hreach
    obtain ⟨v, hv, rfl⟩ := List.mem_map.1
      (h.mem_iff.2 (List.mem_map.2 ⟨w, hw, hreach.1⟩))
    refine RegisterWrite.byte?_eq_none_iff.1 (hnone v (hperm.mem_iff.2 hv)) ⟨rfl, ?_⟩
    rw [h.mask_eq v hv, covers_writtenLanes]
    exact ⟨w, hw, hreach⟩
  · obtain ⟨⟨rfl, -⟩, hbyte⟩ := RegisterWrite.byte?_eq_some_iff.1 hlatest
    rw [← hbyte, h.data_eq v (hperm.mem_iff.1 hv)]

end Records

/-! ### Any sequence of effects -/

/-- The working copy after the effects of any number of cycles has their register writes performed
in order. -/
theorem registers_foldl_stage (s : Staging) (effects : List Effects) :
    (effects.foldl stage s).registers =
      s.registers.writeAll (effects.filterMap Effects.registerWrite) := by
  induction effects generalizing s with
  | nil => rfl
  | cons e rest ih =>
      rw [List.foldl_cons, ih, stage_registers]
      cases he : e.registerWrite <;> simp [he, RegisterFile.writeAll]

/-- The memory write that waits after the effects of any number of cycles is the last one proposed.
-/
theorem memoryWrite_foldl_stage (s : Staging) (effects : List Effects) :
    (effects.foldl stage s).memoryWrite =
      (effects.filterMap Effects.memoryWrite).getLast?.or s.memoryWrite := by
  induction effects generalizing s with
  | nil => rfl
  | cons e rest ih =>
      rw [List.foldl_cons, ih, stage_memoryWrite]
      cases he : e.memoryWrite <;> simp [he, List.getLast?_cons]

/-- **Staging merges any sequence of effects faithfully**, whatever the registers of the start are.
Let the effects be staged one after the other from the start. Then:

* the working copy has their register writes performed in order;
* the record has one entry for each register written, in the order of the first writes;
* an entry has the word that the working copy holds, and its mask is the union of the masks of all
  writes to its register;
* the entries, merged into the registers of the start in any order, give the working copy;
* the memory write is the last one that was proposed, if there was one. -/
theorem merges_faithfully (regs : RegisterFile) (effects : List Effects) :
    let s := effects.foldl stage (.start regs)
    let writes := effects.filterMap Effects.registerWrite
    s.registers = regs.writeAll writes ∧
    s.registerWrites.map register = (writes.map register).eraseDups ∧
    (s.registerWrites.map register).Nodup ∧
    (∀ v ∈ s.registerWrites, v.data = s.registers.get v.register ∧
      v.mask = ((writes.filter (·.register = v.register)).map mask).foldl LaneMask.union .none) ∧
    (∀ entries : List RegisterWrite, entries.Perm s.registerWrites →
      regs.writeAll entries = s.registers) ∧
    s.memoryWrite = (effects.filterMap Effects.memoryWrite).getLast? := by
  intro s writes
  have hregisters : s.registers = regs.writeAll writes := registers_foldl_stage _ effects
  have hmemory : s.memoryWrite = (effects.filterMap Effects.memoryWrite).getLast? := by
    rw [memoryWrite_foldl_stage, Staging.start, Option.or_none]
  have hrecords : s.Records writes := (Records.start regs).foldl_stage effects
  exact ⟨hregisters, hrecords.order_eq, hrecords.nodup,
    fun v hv => ⟨hrecords.data_eq v hv, hrecords.mask_eq v hv⟩,
    fun _ hperm => hrecords.writeAll_eq hregisters hperm, hmemory⟩

/-- Four cycles with three writes to one register, two of them to the same lane, and a write through
the empty mask to another register, which is recorded although it reaches nothing. -/
theorem merges_faithfully_repeated :
    let regs := RegisterFile.zero.write .g4 0x1234 .both
    let cycle : Option RegisterWrite → Option MemoryWrite → Effects := .mk ⟨0, true⟩ 0
    let s := Staging.start regs
      |>.stage (cycle (some ⟨.g5, 0x00AA, .low⟩) none)
      |>.stage (cycle (some ⟨.g4, 0xFFFF, .none⟩) (some ⟨1, 0x5555, .both⟩))
      |>.stage (cycle (some ⟨.g5, 0xBB00, .high⟩) (some ⟨2, 0x0066, .low⟩))
      |>.stage (cycle (some ⟨.g5, 0x00CC, .low⟩) none)
    s.registerWrites.map register = [.g5, .g4] ∧
      s.registers = regs.writeAll [⟨.g4, 0x1234, .none⟩, ⟨.g5, 0xBBCC, .both⟩] ∧
      s.memoryWrite = some ⟨2, 0x0066, .low⟩ := by
  intro regs cycle s
  obtain ⟨-, horder, -, -, hmerge, hmemory⟩ := merges_faithfully regs
    [cycle (some ⟨.g5, 0x00AA, .low⟩) none,
      cycle (some ⟨.g4, 0xFFFF, .none⟩) (some ⟨1, 0x5555, .both⟩),
      cycle (some ⟨.g5, 0xBB00, .high⟩) (some ⟨2, 0x0066, .low⟩),
      cycle (some ⟨.g5, 0x00CC, .low⟩) none]
  have hentries : s.registerWrites = [⟨.g5, 0xBBCC, .both⟩, ⟨.g4, 0x1234, .none⟩] := by decide
  refine ⟨horder.trans (by decide), (hmerge _ ?_).symm, hmemory⟩
  exact (List.Perm.swap _ _ []).trans (.of_eq hentries.symm)

end Staging

end Smolisa
