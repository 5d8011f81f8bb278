import WordMachine.Source.Cursor

/-!
# Cursors over bytes

A cursor that keeps its whole text and the byte offset of the next character. What is unread is the part
of the text from that offset on, and there is such a part only between two characters. The offset moves
on two ways: by the size of one character that is read, and by the size of a run that is found in the
unread part.
-/

namespace WordMachine.Source

/-- A byte offset inside of a character or past the end of a text. -/
structure Misplaced where
  offset : Nat
deriving DecidableEq

def splitAt (text : String) (offset : Nat) : Except Misplaced (String × String) :=
  if h : (String.Pos.Raw.mk offset).IsValid text then
    let place : text.Pos := ⟨⟨offset⟩, h⟩
    .ok ((text.sliceTo place).copy, (text.sliceFrom place).copy)
  else .error ⟨offset⟩

def offset? (p : Char → Bool) : List Char → Option Nat
  | [] => none
  | c :: cs => if p c then some 0 else (offset? p cs).map (c.utf8Size + ·)

structure ByteCursor where
  text : String
  /-- the byte offset of the next character -/
  position : Nat
  location : Location
deriving DecidableEq

namespace ByteCursor

def ofText (text : String) : ByteCursor := ⟨text, 0, .start⟩

def unread (k : ByteCursor) : Except Misplaced String := do
  let (_, rest) ← splitAt k.text k.position
  return rest

def peek (k : ByteCursor) : Except Misplaced (Option Char) := do
  let rest ← k.unread
  return rest.toList.head?

/-- Reads the next character, if there is one. -/
def next (k : ByteCursor) : Except Misplaced (Option Char × ByteCursor) := do
  match ← k.peek with
  | none => return (none, k)
  | some c => return (some c, ⟨k.text, k.position + c.utf8Size, k.location.after c⟩)

/-- Reads the longest run of characters that satisfy a condition, unless it is empty. -/
def run? (p : Char → Bool) (k : ByteCursor) : Except Misplaced (Option String × ByteCursor) := do
  let rest ← k.unread
  let stop := (offset? (fun c => !p c) rest.toList).getD rest.utf8ByteSize
  if stop = 0 then return (none, k)
  let (found, _) ← splitAt rest stop
  return (some found, ⟨k.text, k.position + stop, k.location.through found.toList⟩)

def trimLeft (k : ByteCursor) : Except Misplaced ByteCursor := do
  let (_, after) ← k.run? isBlank
  return after

def skipLine (k : ByteCursor) : Except Misplaced ByteCursor := do
  let (_, after) ← k.run? (· != '\n')
  return after

end ByteCursor

end WordMachine.Source
