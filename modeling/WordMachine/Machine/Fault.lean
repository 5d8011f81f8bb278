import WordMachine.Text.Numeral
import WordMachine.Word

/-!
# Faults

What stops a machine, and the message that says so.
-/

namespace WordMachine

/-- Why a program cannot be installed or go on. -/
inductive Fault
  /-- the program is larger than memory -/
  | programTooLarge (program memory : Nat)
  /-- the byte at the address names no opcode -/
  | invalidOpcode (byte : UInt8) (address : Word)
  /-- memory ends before the instruction at the address does -/
  | truncatedInstruction (address : Word)
  /-- an access at the address does not lie in memory -/
  | outOfBounds (address : Word) (width : Nat)
  /-- the instruction at the address divides by zero -/
  | divisionByZero (address : Word)
  /-- the host failed the instruction at the address -/
  | hostFailure (address : Word) (reason : String)
deriving DecidableEq

def Fault.message : Fault → String
  | programTooLarge program memory =>
    "program of " ++ program.repr ++ " bytes does not fit in " ++ memory.repr ++ " bytes of memory"
  | invalidOpcode byte address =>
    "invalid opcode 0x" ++ Numeral.hex 2 byte.toNat ++ " at address " ++ address.text
  | truncatedInstruction address => "truncated instruction at address " ++ address.text
  | outOfBounds address width =>
    "out of bounds " ++ width.repr ++ "-byte access at address " ++ address.text
  | divisionByZero address => "division by zero at address " ++ address.text
  | hostFailure address reason => "I/O failure at address " ++ address.text ++ ": " ++ reason

end WordMachine
