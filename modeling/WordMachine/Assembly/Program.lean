import WordMachine.Assembly.Labels
import WordMachine.Assembly.Reader
import WordMachine.Instruction.Codec

/-!
# Assembling a program

A pass reads a text line by line, records its labels in a table and gives the bytes of its
instructions. A pass that is not the last takes zero for a label that is not recorded yet, so that
two passes over one table resolve labels before and after their declarations alike: a value takes
four bytes whatever it is.
-/

namespace WordMachine.Assembly

/-- The word of a value. Without a record a label is zero, on the last pass an error. -/
def Value.resolve (last : Bool) (labels : Labels) : Value → Except LineError Word
  | number n => .ok (Word.ofInt n)
  | label name =>
    match labels.get? name with
    | some offset => .ok offset
    | none => if last then .error (.undeclaredLabel name) else .ok 0

/-- The bytes of a line that stands at an offset, and the table after it. -/
def Line.assemble (last : Bool) (offset : Nat) (labels : Labels) :
    Line → Except LineError (List UInt8 × Labels)
  | blank => .ok ([], labels)
  | label name =>
    if offset < 4294967296 then
      match labels.insert name (UInt32.ofNat offset) with
      | .ok labels => .ok ([], labels)
      | .error _ => .error (.labelRedeclared name)
    else .error .invalidLabelDeclaration
  | instruction i => (i.traverse (Value.resolve last labels)).map fun i => (i.encode, labels)

/-- Assembles lines of which the first has a number and an offset. The table is the one at the first
line that fails, or after the last line. -/
def passFrom (last : Bool) :
    (number offset : Nat) → Labels → List (List Char) → Except Error (List UInt8) × Labels
  | _, _, labels, [] => (.ok [], labels)
  | number, offset, labels, line :: rest =>
    match Line.read line >>= Line.assemble last offset labels with
    | .error e => (.error ⟨number, e⟩, labels)
    | .ok (bytes, labels) =>
      let after := passFrom last (number + 1) (offset + bytes.length) labels rest
      (after.1.map (bytes ++ ·), after.2)

def pass (last : Bool) (labels : Labels) (text : String) : Except Error (List UInt8) × Labels :=
  passFrom last 1 0 labels (lines text)

/-- Assembles a program: a pass that records the labels and a last pass. -/
def assemble (text : String) : Except Error (List UInt8) :=
  match pass false .empty text with
  | (.error e, _) => .error e
  | (.ok _, labels) => (pass true labels text).1

end WordMachine.Assembly
