import WordMachine.Machine.Fault
import WordMachine.Machine.Flags
import WordMachine.Machine.Memory
import WordMachine.Machine.RegisterFile

/-!
# Machines

A machine has memory, registers, flags and the address at which its program starts. A program lies at
the end of memory, and the stack grows down from its start.
-/

namespace WordMachine

@[ext]
structure Machine where
  memory : Memory
  registers : RegisterFile
  flags : Flags
  /-- the address of the first byte of the program -/
  programOffset : Word

namespace Machine

def empty (size : Word) : Machine := ⟨.zeros size, .zeros, .clear, size⟩

def get (m : Machine) (r : Register) : Word := m.registers.get r

def set (m : Machine) (r : Register) (w : Word) : Machine :=
  { m with registers := m.registers.set r w }

/-- Clears memory below the place of a program at its end, copies the program there, and resets the
machine to run it. -/
def boot (m : Machine) (program : List UInt8) : Machine :=
  let start := m.memory.size - program.length
  let m := { m with memory := (m.memory.clear start).put start program }
  let m := { m with registers := .zeros, programOffset := UInt32.ofNat start }
  let m := m.set .instruction m.programOffset
  let m := m.set .stack m.programOffset
  { m with flags := .clear }

/-- The machine that is about to run a program, if the program fits into its memory. -/
def install (m : Machine) (program : List UInt8) : Except Fault Machine :=
  if program.length ≤ m.memory.size then .ok (m.boot program)
  else .error (.programTooLarge program.length m.memory.size)

end Machine

end WordMachine
