import WordMachine.Instruction

/-!
# Lines of assembly text

A line holds nothing, a label or an instruction, and labels begin with `@`. The values of an
instruction are numbers or labels. `Line.text` writes a line; the reader of lines is in
`WordMachine.Assembly.Reader`.
-/

namespace WordMachine.Assembly

inductive Value
  /-- a number, taken modulo 2^32 -/
  | number (n : Int)
  /-- the offset of a label -/
  | label (name : String)
deriving DecidableEq

def Value.text : Value → String
  | number n => n.repr
  | label name => name

inductive Line
  /-- nothing -/
  | blank
  /-- the label stands for the offset of what follows -/
  | label (name : String)
  /-- an instruction -/
  | instruction (i : Instruction Value)
deriving DecidableEq

namespace Line

def text : Line → String
  | blank => ""
  | label name => name
  | instruction i => i.text Value.text

/-- How many bytes a line adds to a program. -/
def size : Line → Nat
  | instruction i => i.size
  | _ => 0

end Line

/-- The text of a program: its lines, each ended by a line feed. -/
def render (lines : List Line) : String := String.join (lines.map fun l => l.text ++ "\n")

end WordMachine.Assembly
