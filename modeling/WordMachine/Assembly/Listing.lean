import WordMachine.Assembly.Line
import WordMachine.Instruction.Codec

/-!
# Listings

A listing is assembly text made from the bytes of a program. A program does not record the names of
its labels: the jump to the start of an instruction at offset `n` is written with the label `@l<n>`,
the jump past the last instruction with `@end`, and any other with the number of its offset. Only
labels that are used are declared.
-/

namespace WordMachine.Assembly

/-- Where bytes stop being a program. -/
inductive ListingError
  /-- the byte at an offset names no opcode -/
  | invalidOpcode (offset : Nat)
  /-- the instruction at an offset is cut short -/
  | unexpectedEnd (offset : Nat)
deriving DecidableEq

def ListingError.message : ListingError → String
  | invalidOpcode offset => "Invalid command at offset " ++ offset.repr
  | unexpectedEnd offset => "Unexpected end of program at offset " ++ offset.repr

/-- The instructions of a program whose first byte has an offset, each with its own offset. -/
def instructionsFrom (offset : Nat) (bytes : List UInt8) :
    Except ListingError (List (Nat × Instruction Word)) :=
  match bytes with
  | [] => .ok []
  | b :: rest =>
    match Instruction.decode (b :: rest) with
    | .error (.invalidOpcode _) => .error (.invalidOpcode offset)
    | .error .truncated => .error (.unexpectedEnd offset)
    | .ok i =>
      (instructionsFrom (offset + i.size) ((b :: rest).drop i.size)).map ((offset, i) :: ·)
termination_by bytes.length
decreasing_by
  have := i.opcode.size_pos
  simp only [List.length_drop, List.length_cons, Instruction.size]
  omega

def instructions (bytes : List UInt8) : Except ListingError (List (Nat × Instruction Word)) :=
  instructionsFrom 0 bytes

def offsetLabel (offset : Nat) : String := "@l" ++ offset.repr

def endLabel : String := "@end"

/-- How a jump target is written in the listing of a program with these instruction starts and this
size. -/
def targetValue (starts : List Nat) (size : Nat) (target : Word) : Value :=
  if target.toNat ∈ starts then .label (offsetLabel target.toNat)
  else if target.toNat = size then .label endLabel
  else .number target.toNat

def listedOperands {s : Shape} (starts : List Nat) (size : Nat) :
    Operands Word s → Operands Value s
  | .none => .none
  | .reg a => .reg a
  | .regReg a b => .regReg a b
  | .regVal a v => .regVal a (.number v.toNat)
  | .label t => .label (targetValue starts size t)

def listed (starts : List Nat) (size : Nat) (i : Instruction Word) : Instruction Value :=
  ⟨i.opcode, listedOperands starts size i.operands⟩

/-- The lines of the listing of a program of this size. -/
def listingLines (size : Nat) (program : List (Nat × Instruction Word)) : List Line :=
  let starts := program.map (·.1)
  let targets := program.filterMap fun p => p.2.operands.target?.map UInt32.toNat
  let body := program.flatMap fun p =>
    (if p.1 ∈ targets then [Line.label (offsetLabel p.1)] else []) ++
      [Line.instruction (listed starts size p.2)]
  if size ∈ targets then body ++ [.label endLabel] else body

def disassemble (bytes : List UInt8) : Except ListingError String :=
  (instructions bytes).map fun program => render (listingLines bytes.length program)

end WordMachine.Assembly
