import Smolisa.Proofs.Preview

/-!
# What a Window Lists

A window of a listing ends for one of three reasons: it has as many rows as were asked for, memory
ends, or the addresses of sixteen bits end. This module says exactly which words it lists. They are
those from the word of its start on, each of them once and in order, as many as all three bounds
allow.

A machine does not have the numbers that `Listing.rows` counts its addresses with. It numbers the
slots of the window in sixty-four bits, doubles the number of a slot, and then checks twice: that
the double fits sixteen bits, and that the sum with the start does. The doubling itself is not
checked, and it would wrap for large slots; but the window has ended long before. The slots that are
looked at and their addresses are given here in such machine arithmetic, and shown to make the same
window.

## Main results

* `Listing.rows_eq_map` — the rows of a window in one formula.
* `Listing.rows_add` — a window can be taken up where another one ends.
* `Listing.filterMap_slotRow?_visited` — the slots, in machine arithmetic, make the same window.
* `Listing.window_lists_addressable_words` — **a window lists exactly the addressable words.**
-/

namespace Smolisa

namespace Listing

/-! ### The rows of a window -/

/-- The row at an address, if the address has sixteen bits and memory has a word there. -/
def rowAt? (memory : Memory) (profile : Profile) (addr : Nat) : Option Row :=
  if addr < 65536 then
    (memory.read (addr / 2)).toOption.map (Row.ofWord (UInt16.ofNat addr) · profile)
  else
    none

theorem rowAt?_of_lt {memory : Memory} {addr : Nat} (haddr : addr < 65536)
    (hcap : addr / 2 < memory.capacity) (profile : Profile) :
    rowAt? memory profile addr =
      some (Row.ofWord (UInt16.ofNat addr) (memory.get (addr / 2)) profile) := by
  rw [rowAt?, if_pos haddr, Memory.read_of_lt hcap]
  rfl

theorem rowAt?_eq_none_iff {memory : Memory} {profile : Profile} {addr : Nat} :
    rowAt? memory profile addr = none ↔ 65536 ≤ addr ∨ memory.capacity ≤ addr / 2 := by
  by_cases haddr : addr < 65536
  · rcases Nat.lt_or_ge (addr / 2) memory.capacity with hcap | hcap
    · rw [rowAt?_of_lt haddr hcap, eq_false (Option.some_ne_none _), false_iff]
      omega
    · rw [rowAt?, if_pos haddr, Memory.read_of_le hcap]
      exact iff_of_true rfl (.inr hcap)
  · rw [rowAt?, if_neg haddr]
    exact iff_of_true rfl (.inl (Nat.not_lt.1 haddr))

/-- A window goes on from a row to the next one, and ends where there is none. -/
theorem rows_succ (memory : Memory) (profile : Profile) (count addr : Nat) :
    rows memory profile (count + 1) addr =
      match rowAt? memory profile addr with
      | some row => row :: rows memory profile count (addr + 2)
      | none => [] := by
  rw [rows, rowAt?]
  split
  · cases memory.read (addr / 2) <;> rfl
  · rfl

/-- **The rows of a window in one formula.** There are as many as the count, the memory and the
addresses all allow. -/
theorem rows_eq_map (memory : Memory) (profile : Profile) (count addr : Nat) :
    rows memory profile count addr =
      (List.range (min count (min memory.capacity 32768 - addr / 2))).map fun i =>
        Row.ofWord (UInt16.ofNat (addr + 2 * i)) (memory.get (addr / 2 + i)) profile := by
  induction count generalizing addr with
  | zero => simp [rows]
  | succ count ih =>
      rw [rows_succ]
      by_cases hend : 65536 ≤ addr ∨ memory.capacity ≤ addr / 2
      · have hnone : min (count + 1) (min memory.capacity 32768 - addr / 2) = 0 := by omega
        rw [rowAt?_eq_none_iff.2 hend, hnone]
        rfl
      · -- The first row is the one for zero, and the later ones are those of the next window with
        -- their numbers shifted by one.
        have hlength : min (count + 1) (min memory.capacity 32768 - addr / 2) =
            min count (min memory.capacity 32768 - (addr + 2) / 2) + 1 := by omega
        rw [rowAt?_of_lt (by omega) (by omega), ih, hlength, List.range_succ_eq_map, List.map_cons,
          List.map_map]
        refine congrArg _ (List.map_congr_left fun i _ => ?_)
        have haddr : addr + 2 + 2 * i = addr + 2 * (i + 1) := by omega
        have hword : (addr + 2) / 2 + i = addr / 2 + (i + 1) := by omega
        rw [haddr, hword]
        rfl

/-- A window can be taken up where another one ends. -/
theorem rows_add (memory : Memory) (profile : Profile) (a b addr : Nat) :
    rows memory profile (a + b) addr =
      rows memory profile a addr ++ rows memory profile b (addr + 2 * a) := by
  induction a generalizing addr with
  | zero => simp [rows]
  | succ a ih =>
      rw [Nat.add_right_comm, rows_succ, rows_succ]
      by_cases hend : 65536 ≤ addr ∨ memory.capacity ≤ addr / 2
      · -- The first window has ended early, and the second one starts behind the same end.
        have hlater : rows memory profile b (addr + 2 * (a + 1)) = [] :=
          (rows_eq_nil_iff _ _ _ _).2 (.inr (by omega))
        rw [rowAt?_eq_none_iff.2 hend, hlater]
        rfl
      · have hnext : addr + 2 + 2 * a = addr + 2 * (a + 1) := by omega
        rw [rowAt?_of_lt (by omega) (by omega), ih, hnext]
        rfl

/-! ### Slots in machine arithmetic -/

/-- The address of a slot of a window. The number of the slot is doubled in sixty-four bits, where
it wraps if it has to. There is no address if the double does not fit sixteen bits, or if its sum
with the even start does not. -/
def slotAddress? (start : Word) (slot : UInt64) : Option Word :=
  let offset := slot * 2
  let base := start &&& 0xFFFE
  if offset < 65536 ∧ offset.toNat + base.toNat < 65536 then
    some (offset.toUInt16 + base)
  else
    none

/-- The row of a slot of a window, if the slot has an address and memory has a word there. -/
def slotRow? (start : Word) (memory : Memory) (profile : Profile) (slot : UInt64) : Option Row := do
  let addr ← slotAddress? start slot
  let word ← (memory.read (Memory.wordIndex addr)).toOption
  return Row.ofWord addr word profile

/-- The slots that are looked at from a given one on: at most `count` of them, up to the first that
has no row. -/
def visited (start : Word) (memory : Memory) (profile : Profile) :
    (count : Nat) → (slot : UInt64) → List UInt64
  | 0, _ => []
  | count + 1, slot =>
    slot ::
      match slotRow? start memory profile slot with
      | some _ => visited start memory profile count (slot + 1)
      | none => []

variable {start : Word} {memory : Memory} {profile : Profile} {slot : UInt64}

/-- The double of a slot does not wrap, up to the end of the addresses of sixteen bits. -/
theorem toNat_mul_two (h : slot.toNat ≤ 32768) : (slot * 2).toNat = 2 * slot.toNat := by
  rw [UInt64.toNat_mul]
  change slot.toNat * 2 % 2 ^ 64 = _
  omega

/-- Up to the end of the addresses of sixteen bits no address of a slot wraps. -/
theorem slotAddress?_eq (h : slot.toNat ≤ 32768) :
    slotAddress? start slot =
      if 2 * Memory.wordIndex start + 2 * slot.toNat < 65536 then
        some (UInt16.ofNat (2 * Memory.wordIndex start + 2 * slot.toNat))
      else
        none := by
  have hbase : (start &&& 0xFFFE).toNat = 2 * Memory.wordIndex start := by
    rw [Word.toNat_and_even, Memory.wordIndex_eq]
  have hoffset := toNat_mul_two h
  have hcond : (slot * 2 < 65536 ∧ (slot * 2).toNat + (start &&& 0xFFFE).toNat < 65536) ↔
      2 * Memory.wordIndex start + 2 * slot.toNat < 65536 := by
    rw [UInt64.lt_iff_toNat_lt, hoffset, hbase]
    change 2 * slot.toNat < 65536 ∧ _ ↔ _
    omega
  simp only [slotAddress?, hcond]
  split
  · next hlt =>
      congr 1
      apply UInt16.toNat_inj.1
      rw [UInt16.toNat_add, UInt64.toNat_toUInt16, hoffset, hbase, UInt16.toNat_ofNat']
      omega
  · rfl

/-- The row of a slot is the one at its address. -/
theorem slotRow?_eq (h : slot.toNat ≤ 32768) :
    slotRow? start memory profile slot =
      rowAt? memory profile (2 * Memory.wordIndex start + 2 * slot.toNat) := by
  rw [slotRow?, slotAddress?_eq h, rowAt?]
  split
  · next hlt =>
      have hindex : Memory.wordIndex
          (UInt16.ofNat (2 * Memory.wordIndex start + 2 * slot.toNat)) =
            (2 * Memory.wordIndex start + 2 * slot.toNat) / 2 := by
        rw [Memory.wordIndex_eq, UInt16.toNat_ofNat', Nat.mod_eq_of_lt hlt]
      simp only [Option.bind_eq_bind, Option.bind_some, hindex]
      cases memory.read ((2 * Memory.wordIndex start + 2 * slot.toNat) / 2) <;> rfl
  · rfl

/-- A slot that has a row is not the last one that can be numbered without wrapping. -/
theorem toNat_add_one_of_slotRow? {row : Row} (h : slot.toNat ≤ 32768)
    (hrow : slotRow? start memory profile slot = some row) :
    slot.toNat < 32768 ∧ (slot + 1).toNat = slot.toNat + 1 := by
  have hlt : slot.toNat < 32768 := by
    by_contra hge
    rw [slotRow?_eq h, rowAt?_eq_none_iff.2 (.inl (by omega))] at hrow
    cases hrow
  refine ⟨hlt, ?_⟩
  rw [UInt64.toNat_add]
  change (slot.toNat + 1) % 2 ^ 64 = _
  omega

/-- No slot behind the end of the addresses is looked at. -/
theorem toNat_le_of_mem_visited (h : slot.toNat ≤ 32768) (count : Nat) :
    ∀ s ∈ visited start memory profile count slot, s.toNat ≤ 32768 := by
  induction count generalizing slot with
  | zero => exact fun s hs => absurd hs List.not_mem_nil
  | succ count ih =>
      intro s hs
      rw [visited] at hs
      rcases List.mem_cons.1 hs with rfl | hs
      · exact h
      · cases hrow : slotRow? start memory profile slot with
        | none =>
            rw [hrow] at hs
            exact absurd hs List.not_mem_nil
        | some row =>
            rw [hrow] at hs
            obtain ⟨hlt, hnext⟩ := toNat_add_one_of_slotRow? h hrow
            exact ih (by omega) s hs

/-- **The slots, in machine arithmetic, make the same window.** -/
theorem filterMap_slotRow?_visited (h : slot.toNat ≤ 32768) (count : Nat) :
    (visited start memory profile count slot).filterMap (slotRow? start memory profile) =
      rows memory profile count (2 * Memory.wordIndex start + 2 * slot.toNat) := by
  induction count generalizing slot with
  | zero => rfl
  | succ count ih =>
      rw [visited, List.filterMap_cons, rows_succ, ← slotRow?_eq h]
      cases hrow : slotRow? start memory profile slot with
      | none => rfl
      | some row =>
          obtain ⟨hlt, hnext⟩ := toNat_add_one_of_slotRow? h hrow
          have haddr : 2 * Memory.wordIndex start + 2 * (slot.toNat + 1) =
              2 * Memory.wordIndex start + 2 * slot.toNat + 2 := by omega
          rw [← haddr, ← hnext]
          exact congrArg (row :: ·) (ih (by omega))

/-! ### Windows -/

/-- The rows of a window, counted from the word of its start. -/
theorem window_eq_map (start : Word) (count : Nat) (memory : Memory) (profile : Profile) :
    window start count memory profile =
      (List.range (min count (min memory.capacity 32768 - Memory.wordIndex start))).map fun i =>
        Row.ofWord (UInt16.ofNat (2 * Memory.wordIndex start + 2 * i))
          (memory.get (Memory.wordIndex start + i)) profile := by
  rw [window_eq_rows, rows_eq_map, Nat.mul_div_cancel_left _ (by decide : 0 < 2)]

/-- The addresses of a window rise from row to row. -/
theorem pairwise_addr_window (start : Word) (count : Nat) (memory : Memory) (profile : Profile) :
    (window start count memory profile).Pairwise fun a b => a.addr < b.addr := by
  rw [window_eq_map, List.pairwise_map]
  refine List.pairwise_lt_range.imp_of_mem fun {i j} _ hj hij => ?_
  rw [List.mem_range] at hj
  rw [Row.addr_ofWord, Row.addr_ofWord, UInt16.lt_iff_toNat_lt, UInt16.toNat_ofNat',
    UInt16.toNat_ofNat', Nat.mod_eq_of_lt (by omega), Nat.mod_eq_of_lt (by omega)]
  omega

/-- A window splits anywhere, as long as the address of the second part has sixteen bits. -/
theorem window_add {a : Nat} (h : start.toNat + 2 * a < 65536) (b : Nat) (memory : Memory)
    (profile : Profile) :
    window start (a + b) memory profile =
      window start a memory profile ++ window (start + UInt16.ofNat (2 * a)) b memory profile := by
  have hnext : Memory.wordIndex (start + UInt16.ofNat (2 * a)) = Memory.wordIndex start + a := by
    rw [Memory.wordIndex_eq, Memory.wordIndex_eq, UInt16.toNat_add, UInt16.toNat_ofNat']
    omega
  rw [window_eq_rows, window_eq_rows, window_eq_rows, hnext, Nat.mul_add, rows_add]

/-- **A window lists exactly the addressable words.** The number of its rows is the smallest of the
count and of the numbers of words that memory and the addresses of sixteen bits have from its start
on. The rows show these words in order, each at its address, which rises from row to row and so does
not come back to zero. The same rows come from numbered slots, with the addresses computed in
sixty-four and sixteen bits: of the slots that are looked at, none has a double above 65536, and
none an address that has wrapped. And a window splits anywhere. -/
theorem window_lists_addressable_words (start : Word) (count : Nat) (memory : Memory)
    (profile : Profile) :
    (window start count memory profile).length =
      min count (min memory.capacity 32768 - Memory.wordIndex start) ∧
    (∀ i row, (window start count memory profile)[i]? = some row →
      2 * Memory.wordIndex start + 2 * i < 65536 ∧
      ∃ word, memory.read (Memory.wordIndex start + i) = .ok word ∧
        row = Row.ofWord (UInt16.ofNat (2 * Memory.wordIndex start + 2 * i)) word profile) ∧
    (window start count memory profile).Pairwise (fun a b => a.addr < b.addr) ∧
    (visited start memory profile count 0).filterMap (slotRow? start memory profile) =
      window start count memory profile ∧
    (∀ slot ∈ visited start memory profile count 0,
      2 * slot.toNat ≤ 65536 ∧ (slot * 2).toNat = 2 * slot.toNat ∧
      ∀ addr, slotAddress? start slot = some addr →
        addr.toNat = 2 * Memory.wordIndex start + 2 * slot.toNat) ∧
    ∀ a b, start.toNat + 2 * a < 65536 →
      window start (a + b) memory profile =
        window start a memory profile ++
          window (start + UInt16.ofNat (2 * a)) b memory profile := by
  refine ⟨?_, fun i row hrow => ?_, pairwise_addr_window _ _ _ _, ?_, fun slot hslot => ?_,
    fun a b h => window_add h b memory profile⟩
  · rw [window_eq_map, List.length_map, List.length_range]
  · rw [window_eq_map, List.getElem?_map, Option.map_eq_some_iff] at hrow
    obtain ⟨j, hj, rfl⟩ := hrow
    obtain ⟨hlt, rfl⟩ := List.getElem?_eq_some_iff.1 hj
    rw [List.length_range] at hlt
    rw [List.getElem_range]
    exact ⟨by omega, _, Memory.read_of_lt (by omega), rfl⟩
  · rw [window_eq_rows]
    exact filterMap_slotRow?_visited (Nat.zero_le _) count
  · have hle := toNat_le_of_mem_visited (Nat.zero_le _) count slot hslot
    refine ⟨by omega, toNat_mul_two hle, fun addr haddr => ?_⟩
    rw [slotAddress?_eq hle] at haddr
    split at haddr
    · next hlt =>
        cases haddr
        rw [UInt16.toNat_ofNat', Nat.mod_eq_of_lt hlt]
    · cases haddr

/-- A window that starts at an odd address two words in front of the end of memory, with the largest
count of sixty-four bits. It has two rows, and splits behind the first of them. -/
theorem window_lists_addressable_words_end :
    let memory : Memory := ⟨#[0x0000, 0x0001, 0x0200, 0x1234]⟩
    let rows := window 5 18446744073709551615 memory .full
    rows.length = 2 ∧ rows[1]? = some (Row.ofWord 6 0x1234 .full) ∧
      (5 : Word).toNat + 2 * 1 < 65536 ∧
      rows = window 5 1 memory .full ++ window 7 18446744073709551614 memory .full := by
  intro memory rows
  obtain ⟨hlength, hrow, -, -, -, hsplit⟩ :=
    window_lists_addressable_words 5 18446744073709551615 memory .full
  have htwo : rows.length = 2 := hlength.trans (by decide)
  obtain ⟨row, hsome⟩ : ∃ row, rows[1]? = some row :=
    ⟨_, List.getElem?_eq_getElem (by omega : 1 < rows.length)⟩
  obtain ⟨-, word, hread, rfl⟩ := hrow 1 row hsome
  have hword : word = 0x1234 := by
    have hlast : memory.read (Memory.wordIndex 5 + 1) = .ok 0x1234 := by decide
    exact Except.ok.inj (hread.symm.trans hlast)
  subst hword
  exact ⟨htwo, hsome, by decide, hsplit 1 18446744073709551614 (by decide)⟩

end Listing

end Smolisa
