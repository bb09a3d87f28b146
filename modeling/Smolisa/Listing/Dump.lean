import Smolisa.Listing.Row
import Smolisa.Machine.Basic

/-!
# Register Dumps

A dump shows every register with its value, and the instruction that is latched with its
assembly text. It comes in two styles: on one line, with tabulators between the entries, or
on one line for each entry, below a heading.
-/

namespace Smolisa

/-- The style of a dump. -/
inductive DumpStyle
  | oneline
  | multiline
  deriving DecidableEq, Inhabited

namespace DumpStyle

/-- What stands in front of the first entry. -/
def heading : DumpStyle → String
  | oneline => ""
  | multiline => "\nRegister dump:\n"

/-- What ends each entry. -/
def separator : DumpStyle → String
  | oneline => "\t\t"
  | multiline => "\n"

end DumpStyle

namespace Dump

/-- The name of a register, filled up with blanks to the width of the longest entry. -/
def paddedName (r : Register) : String :=
  String.ofList (r.name.toList.rightpad 4 ' ')

/-- The entry of a register. -/
def registerEntry (r : Register) (value : Word) : String :=
  "$" ++ paddedName r ++ ": " ++ Hex.ofWord value

/-- The entry of the latched instruction. -/
def instructionEntry (latched : Option Word) (profile : Profile) : String :=
  match latched with
  | some word =>
    "opcode: " ++ Hex.ofWord word ++ " (" ++ Listing.disassemble word profile ++ ")"
  | none => "opcode: none"

/-- The text of a list of entries, each followed by a separator. -/
def joinEntries (separator : String) : List String → String
  | [] => ""
  | entry :: rest => entry ++ separator ++ joinEntries separator rest

/-- The dump of a register file and a latched instruction. -/
def render (registers : RegisterFile) (latched : Option Word) (profile : Profile)
    (style : DumpStyle) : String :=
  style.heading ++
    joinEntries style.separator
      (Register.all.map (fun r => registerEntry r (registers.get r)) ++
        [instructionEntry latched profile])

end Dump

/-- The dump of a machine. -/
def Machine.dump (m : Machine) (style : DumpStyle) : String :=
  Dump.render m.registers m.control.instruction m.config.profile style

end Smolisa
