import WordMachine.Source.Error
import WordMachine.Source.Tree

/-!
# Errors in compiling

Why a text has no compiled program, and the message that says so. A defect would be a mistake of the
compiler itself.
-/

namespace WordMachine.Compiler

open Source

/-- What a function's body must not contain. -/
inductive Violation
  | breakOutsideLoop
  | continueOutsideLoop
  | addressOfRvalue
deriving DecidableEq

def Violation.message : Violation → String
  | breakOutsideLoop => "BREAK outside loop"
  | continueOutsideLoop => "CONTINUE outside loop"
  | addressOfRvalue => "Taking address of rvalue"

/-- What the compiler must not do. -/
inductive Defect
  /-- using a variable that has no place in the frame -/
  | unknownVariable (name : String)
  /-- popping words that were not pushed -/
  | stackUnderflow
deriving DecidableEq

def Defect.message : Defect → String
  | unknownVariable name => "Variable " ++ name ++ " is not in the frame."
  | stackUnderflow => "popped more words than were pushed"

/-- Why a text has no compiled program. -/
inductive Error
  | parse (e : ParseError)
  | violation (function : String) (v : Violation)
  | undefinedFunction (caller : String) (callee : Signature)
  | duplicateFunction (s : Signature)
  | missingMain
  | defect (d : Defect)
deriving DecidableEq

/-- A number of arguments in words. -/
def argumentCount (n : Nat) : String := if n = 1 then "1 argument" else n.repr ++ " arguments"

def Error.message : Error → String
  | parse e => e.message
  | violation function v => "Function " ++ function ++ ": " ++ v.message
  | undefinedFunction caller callee =>
    "Function " ++ caller ++ " calls function " ++ callee.name ++ " with " ++
      argumentCount callee.arity ++ " which is not defined"
  | duplicateFunction s => "Function " ++ s.text ++ " is defined more than once"
  | missingMain => "Function main with no arguments does not exist"
  | defect d => d.message

/-- Whether the text itself is wrong, before its meaning is considered. -/
def Error.isParseError : Error → Bool
  | parse _ => true
  | _ => false

end WordMachine.Compiler
