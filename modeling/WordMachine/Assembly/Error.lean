import WordMachine.Opcode

/-!
# Errors in assembly text

What can be wrong with a line, and the message that says so.
-/

namespace WordMachine.Assembly

/-- What is wrong with a line. -/
inductive LineError
  /-- the first word names no operation -/
  | invalidOperation (word : String)
  /-- the word names no register -/
  | invalidRegister (word : String)
  /-- the word is no number of 64 signed bits -/
  | invalidNumber (word : String)
  /-- the operation takes another number of operands -/
  | wrongOperandCount (opcode : Opcode) (found : Nat)
  /-- a label declaration with more words, or beyond the last offset -/
  | invalidLabelDeclaration
  /-- the label stands at another offset already -/
  | labelRedeclared (name : String)
  /-- the label stands nowhere -/
  | undeclaredLabel (name : String)
deriving DecidableEq

def LineError.message : LineError → String
  | invalidOperation word => "Invalid command: " ++ word
  | invalidRegister word => "Invalid register name: " ++ word
  | invalidNumber word => "Invalid number: " ++ word
  | wrongOperandCount opcode found =>
    "Syntax error: " ++ opcode.mnemonic ++ " takes " ++ opcode.shape.count.repr ++
      " operand(s) but was given " ++ found.repr
  | invalidLabelDeclaration => "Invalid label declaration"
  | labelRedeclared name => "Label redeclared: " ++ name
  | undeclaredLabel name => "Label not declared: " ++ name

/-- A line error and the number of its line, counted from one. -/
structure Error where
  line : Nat
  cause : LineError
deriving DecidableEq

def Error.message (e : Error) : String := "[Line " ++ e.line.repr ++ "] " ++ e.cause.message

end WordMachine.Assembly
