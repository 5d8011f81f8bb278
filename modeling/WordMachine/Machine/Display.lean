import WordMachine.Machine
import WordMachine.Text.Table

/-!
# A machine in text

A table shows the flags, the size of memory and the start of the program, and beside them the
registers that hold something. The stack pointer and the instruction pointer are always shown.
-/

namespace WordMachine.Machine

/-- The table of everything but the registers. -/
def statusTable (m : Machine) : Table where
  titles := ("Field", "Value")
  rows := [("Flags =", m.flags.text), ("Memory =", m.memory.size.repr),
    ("Program =", m.programOffset.text)]
  firstToRight := true

def registerTable (m : Machine) : Table where
  titles := ("Register", "Contents")
  rows := m.registers.toList.filterMap fun (r, w) =>
    if w = 0 ∧ r.alias?.isNone then none
    else some (r.name ++ " =", w.text ++ " (0x" ++ Numeral.hex 8 w.toNat ++ ")")
  firstToRight := true

def display (m : Machine) : String :=
  let whole : Table := {
    titles := ("Machine", "Registers")
    rows := Table.beside m.statusTable.lines m.registerTable.lines
    firstToRight := false }
  String.join (whole.lines.map (· ++ "\n"))

end WordMachine.Machine
