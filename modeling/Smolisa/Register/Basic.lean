/-!
# Registers

The machine has sixteen registers. Fifteen of them are general purpose and are called `g0` to
`g13` and `g15`; register 14 is the instruction pointer and is called `ip`. Instructions name
a register by the four bits of its index.

## Main results

* `Register.ofIndex_index` and `Register.index_ofIndex` — registers and indices correspond.
* `Register.name_inj` — registers are told apart by their names.
-/

namespace Smolisa

/-- A register of the machine. -/
inductive Register
  | g0 | g1 | g2 | g3 | g4 | g5 | g6 | g7 | g8 | g9 | g10 | g11 | g12 | g13
  | ip
  | g15
  deriving DecidableEq

namespace Register

/-- The number of registers. -/
def count : Nat := 16

/-- The index by which instructions name a register. -/
def index : Register → Fin 16
  | g0 => 0 | g1 => 1 | g2 => 2 | g3 => 3 | g4 => 4 | g5 => 5 | g6 => 6 | g7 => 7
  | g8 => 8 | g9 => 9 | g10 => 10 | g11 => 11 | g12 => 12 | g13 => 13 | ip => 14 | g15 => 15

/-- The registers in the order of their indices. -/
def order : Vector Register 16 :=
  #v[g0, g1, g2, g3, g4, g5, g6, g7, g8, g9, g10, g11, g12, g13, ip, g15]

/-- The register with a given index. -/
def ofIndex (i : Fin 16) : Register :=
  order[i]

/-- The register named by the four low bits of a byte; the high bits are not looked at. -/
def ofNibble (bits : UInt8) : Register :=
  ofIndex (Fin.ofNat 16 bits.toNat)

/-- The registers as a list, in the order of their indices. -/
def all : List Register :=
  order.toList

/-- The name of a register in assembly text. -/
def name : Register → String
  | g0 => "g0" | g1 => "g1" | g2 => "g2" | g3 => "g3" | g4 => "g4" | g5 => "g5"
  | g6 => "g6" | g7 => "g7" | g8 => "g8" | g9 => "g9" | g10 => "g10" | g11 => "g11"
  | g12 => "g12" | g13 => "g13" | ip => "ip" | g15 => "g15"

/-- The register with a given name, if there is one. -/
def ofName? (s : String) : Option Register :=
  all.find? fun r => r.name == s

@[simp] theorem ofIndex_index (r : Register) : ofIndex r.index = r := by
  cases r <;> rfl

@[simp] theorem index_ofIndex (i : Fin 16) : (ofIndex i).index = i := by
  revert i
  decide

/-- Registers are told apart by their indices. -/
theorem index_inj {r s : Register} : r.index = s.index ↔ r = s :=
  ⟨fun h => by rw [← ofIndex_index r, h, ofIndex_index], congrArg index⟩

/-- The index of a register named by a byte is the number in its four low bits. -/
@[simp] theorem val_index_ofNibble (bits : UInt8) :
    (ofNibble bits).index.val = bits.toNat % 16 := by
  simp [ofNibble]

/-- Every register is listed. -/
@[simp] theorem mem_all (r : Register) : r ∈ all := by
  cases r <;> decide

/-- Registers are told apart by their names. -/
theorem name_inj {r s : Register} (h : r.name = s.name) : r = s := by
  have table : ∀ i j : Fin 16, (ofIndex i).name = (ofIndex j).name → i = j := by decide
  have := table r.index s.index (by simpa using h)
  exact index_inj.1 this

end Register

end Smolisa
