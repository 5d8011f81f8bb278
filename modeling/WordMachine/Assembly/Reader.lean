import WordMachine.Assembly.Error
import WordMachine.Assembly.Line

/-!
# Reading a line of assembly text

The words of a line are separated by spaces, tabs and line ends, and a semicolon starts a comment. A
line without words is blank, a line whose first word begins with `@` declares that label, and any
other line is an instruction: a mnemonic and then its operands. Of several mistakes in a line one is
reported, in the order mnemonic, number of operands, operands from left to right.
-/

namespace WordMachine.Assembly

def isSeparator (c : Char) : Bool := c == ' ' || c == '\t' || c == '\r' || c == '\n'

/-- The words of a line, without its comment. -/
def words (line : List Char) : List String :=
  (((line.takeWhile (· != ';')).splitOnP isSeparator).filter (· ≠ [])).map String.ofList

def isLabel (word : String) : Bool := word.toList.head? == some '@'

def readRegister (word : String) : Except LineError Register :=
  match Register.ofName? word with
  | some r => .ok r
  | none => .error (.invalidRegister word)

/-- Reads a label or a number of 64 signed bits. -/
def readValue (word : String) : Except LineError Value :=
  if isLabel word then .ok (.label word)
  else
    match Numeral.integer? word.toList with
    | some n => if -9223372036854775808 ≤ n ∧ n < 9223372036854775808 then .ok (.number n) else .error (.invalidNumber word)
    | none => .error (.invalidNumber word)

def readOperands (o : Opcode) : (s : Shape) → List String → Except LineError (Operands Value s)
  | .simple, [] => .ok .none
  | .reg, [a] => do
    let r ← readRegister a
    return .reg r
  | .regReg, [a, b] => do
    let r ← readRegister a
    let q ← readRegister b
    return .regReg r q
  | .regVal, [a, v] => do
    let r ← readRegister a
    let value ← readValue v
    return .regVal r value
  | .label, [v] => do
    let value ← readValue v
    return .label value
  | _, ws => .error (.wrongOperandCount o ws.length)

def readInstruction (mnemonic : String) (operands : List String) :
    Except LineError (Instruction Value) :=
  match Opcode.ofMnemonic? mnemonic with
  | none => .error (.invalidOperation mnemonic)
  | some o => (readOperands o o.shape operands).map fun x => ⟨o, x⟩

def Line.ofWords : List String → Except LineError Line
  | [] => .ok .blank
  | w :: ws =>
    if isLabel w then
      if ws = [] then .ok (.label w) else .error .invalidLabelDeclaration
    else (readInstruction w ws).map .instruction

def Line.read (line : List Char) : Except LineError Line := Line.ofWords (words line)

/-- The lines of a text. A line feed at the end of the text leaves a blank line after it. -/
def lines (text : String) : List (List Char) := text.toList.splitOn '\n'

end WordMachine.Assembly
