import Smolisa.Word.Basic

/-!
# Hexadecimal Text

Words and bytes are shown in hexadecimal with lower-case digits behind the marker `0x`. A
word always takes four digits and a byte two, so that columns of them line up; a bare opcode
in a diagnostic takes as few digits as it needs.

## Main results

* `Hex.length_digits` — a number shown to a fixed width has exactly that many digits.
* `Hex.digits_inj` — numbers that fit the width are told apart by their digits.
* `Hex.ofWord_inj` and `Hex.ofByte_inj` — so are words and bytes.
-/

namespace Smolisa

namespace Hex

/-- The character of one hexadecimal digit. -/
def digit (n : Nat) : Char :=
  if n < 10 then Char.ofNat (48 + n) else Char.ofNat (87 + n)

/-- A number shown to a fixed width, its highest digit in front. Digits that do not fit are
cut off. -/
def digits : Nat → Nat → List Char
  | 0, _ => []
  | width + 1, n => digits width (n / 16) ++ [digit (n % 16)]

/-- A word behind its marker, in four digits. -/
def ofWord (w : Word) : String :=
  "0x" ++ String.ofList (digits 4 w.toNat)

/-- A byte behind its marker, in two digits. -/
def ofByte (b : UInt8) : String :=
  "0x" ++ String.ofList (digits 2 b.toNat)

/-- A byte behind its marker, in one digit where one is enough. -/
def ofNibble (b : UInt8) : String :=
  "0x" ++ String.ofList (if b < 16 then digits 1 b.toNat else digits 2 b.toNat)

@[simp] theorem length_digits (width n : Nat) : (digits width n).length = width := by
  induction width generalizing n with
  | zero => rfl
  | succ width ih => simp [digits, ih]

/-- The sixteen digits are different characters. -/
theorem digit_inj {m n : Nat} (hm : m < 16) (hn : n < 16) (h : digit m = digit n) : m = n := by
  have table : ∀ i j : Fin 16, digit i = digit j → i = j := by decide
  exact congrArg Fin.val (table ⟨m, hm⟩ ⟨n, hn⟩ h)

/-- Numbers that fit the width, at four bits a digit, are told apart by their digits. -/
theorem digits_inj {width m n : Nat} (hm : m < 1 <<< (4 * width)) (hn : n < 1 <<< (4 * width))
    (h : digits width m = digits width n) : m = n := by
  induction width generalizing m n with
  | zero => omega
  | succ width ih =>
    have hwidth : 1 <<< (4 * (width + 1)) = 1 <<< (4 * width) * 16 := by
      rw [Nat.mul_succ, Nat.shiftLeft_add, Nat.shiftLeft_eq _ 4]
    rw [hwidth] at hm hn
    obtain ⟨hinit, hlast⟩ := List.append_inj' h rfl
    have hdiv : m / 16 = n / 16 := ih (by omega) (by omega) hinit
    have hmod : m % 16 = n % 16 :=
      digit_inj (Nat.mod_lt _ (by decide)) (Nat.mod_lt _ (by decide)) (List.cons.inj hlast).1
    omega

/-- Words are told apart by their text. -/
theorem ofWord_inj {v w : Word} (h : ofWord v = ofWord w) : v = w := by
  have hdigits := String.ofList_inj.1 ((String.append_right_inj _).1 h)
  exact UInt16.toNat_inj.1 (digits_inj v.toNat_lt w.toNat_lt hdigits)

/-- Bytes are told apart by their text. -/
theorem ofByte_inj {a b : UInt8} (h : ofByte a = ofByte b) : a = b := by
  have hdigits := String.ofList_inj.1 ((String.append_right_inj _).1 h)
  exact UInt8.toNat_inj.1 (digits_inj a.toNat_lt b.toNat_lt hdigits)

end Hex

end Smolisa
