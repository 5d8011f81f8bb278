import WordMachine.Source.Cursor

/-!
# Errors in program text

What can be wrong with the text of a program, and the message that says so and where.
-/

namespace WordMachine.Source

/-- What is wrong with a text. -/
inductive Mistake
  /-- no token begins with the character -/
  | unexpectedSymbol (c : Char)
  /-- a quoted character has no quote after it -/
  | invalidCharacter
  /-- a number is no word -/
  | integerOutOfRange (digits : String)
  | unexpectedEnd
  /-- another token than this should stand here -/
  | expected (what : String)
deriving DecidableEq

def Mistake.message : Mistake → String
  | unexpectedSymbol c => "Unexpected symbol: " ++ String.singleton c
  | invalidCharacter => "Invalid character literal"
  | integerOutOfRange digits => "Integer literal out of range: " ++ digits
  | unexpectedEnd => "Unexpected end of file"
  | expected what => what ++ " expected"

/-- A mistake and the start of the token at which it was seen. -/
structure ParseError where
  mistake : Mistake
  location : Location
deriving DecidableEq

def ParseError.message (e : ParseError) : String :=
  e.mistake.message ++ "\nLine " ++ e.location.line.repr ++ ", position " ++ e.location.column.repr

end WordMachine.Source
