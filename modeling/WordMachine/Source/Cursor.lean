import WordMachine.Text.Blank

/-!
# Cursors

A cursor stands in a text and knows the line and column of the next character, both counted from one.
However it is moved, its location is that of its first character followed through all characters
passed (`Location.through`). It holds what is left of the text as characters: a cursor that holds the text
and a byte offset in it goes through the same moves (`ByteCursor`).
-/

namespace WordMachine.Source

structure Location where
  line : Nat
  column : Nat
deriving DecidableEq

namespace Location

/-- The first character of a text. -/
def start : Location := ⟨1, 1⟩

/-- Where the character after this one stands. Only a line feed ends a line. -/
def after (l : Location) (c : Char) : Location :=
  if c = '\n' then ⟨l.line + 1, 1⟩ else ⟨l.line, l.column + 1⟩

def through (l : Location) (passed : List Char) : Location := passed.foldl after l

end Location

/-- The characters still to be read, and where the first of them stands. -/
structure Cursor where
  rest : List Char
  location : Location
deriving DecidableEq

namespace Cursor

def ofText (text : String) : Cursor := ⟨text.toList, .start⟩

def peek (k : Cursor) : Option Char := k.rest.head?

/-- Reads the next character, if there is one. -/
def next : Cursor → Option Char × Cursor
  | ⟨[], location⟩ => (none, ⟨[], location⟩)
  | ⟨c :: rest, location⟩ => (some c, ⟨rest, location.after c⟩)

def takeWhile (p : Char → Bool) (k : Cursor) : List Char × Cursor :=
  let taken := k.rest.takeWhile p
  (taken, ⟨k.rest.dropWhile p, k.location.through taken⟩)

def run? (p : Char → Bool) (k : Cursor) : Option (List Char) × Cursor :=
  match k.takeWhile p with
  | ([], after) => (none, after)
  | (c :: cs, after) => (some (c :: cs), after)

def trimLeft (k : Cursor) : Cursor := (k.takeWhile isBlank).2

def skipLine (k : Cursor) : Cursor := (k.takeWhile (· != '\n')).2

theorem next_cons (c : Char) (rest : List Char) (location : Location) :
    next ⟨c :: rest, location⟩ = (some c, ⟨rest, location.after c⟩) := rfl

end Cursor

end WordMachine.Source
