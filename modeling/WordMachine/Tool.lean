import WordMachine.Assembly.Listing
import WordMachine.Assembly.Program
import WordMachine.Compiler.Program
import WordMachine.Machine.Display
import WordMachine.Machine.Processor
import WordMachine.Text.Utf8

/-!
# The tools

Four tools take one file each: an assembler, a disassembler, a compiler, and a machine that runs a
program. A tool that fails says why on the error stream and exits with status 1.
-/

namespace WordMachine

inductive Tool
  | asm | disasm | cpu | nascal
deriving DecidableEq

/-- What a tool leaves behind: its exit status, the bytes of its output and the text of its errors. -/
structure Report where
  status : Nat
  output : List UInt8
  errors : String
deriving DecidableEq

namespace Report

def success (output : List UInt8) : Report := ⟨0, output, ""⟩

/-- A tool has failed, and the error stream gets this text and the end of a line. -/
def failure (errors : String) : Report := ⟨1, [], errors ++ "\n"⟩

end Report

namespace Tool

def all : List Tool := [asm, disasm, cpu, nascal]

def name : Tool → String
  | asm => "asm" | disasm => "disasm" | cpu => "cpu" | nascal => "nascal"

def ofName? (text : String) : Option Tool := all.find? fun t => t.name == text

/-- The size of the machine that runs a program. -/
def memorySize : Word := 655360

def missingFile : Report := .failure "Error: No such file or directory (os error 2)"

/-- Works on the text of a file, which must be UTF-8. -/
def onText (file : List UInt8) (work : String → Report) : Report :=
  match Utf8.decode? file with
  | some text => work text
  | none => .failure "Error: stream did not contain valid UTF-8"

/-- The bytes of a program from its assembly text. -/
def reportAsm (text : String) : Report :=
  match Assembly.assemble text with
  | .ok program => .success program
  | .error e => .failure ("Error: " ++ e.message)

/-- The assembly text of a program from its bytes. -/
def reportDisasm (program : List UInt8) : Report :=
  match Assembly.disassemble program with
  | .ok text => .success (Utf8.encode text)
  | .error e => .failure ("Error: " ++ e.message)

/-- The assembly text of a program from its source text. -/
def reportCompile (text : String) : Report :=
  match Compiler.compile text with
  | .ok code => .success (Utf8.encode (Assembly.render code))
  | .error e =>
    .failure ((if e.isParseError then "PARSE ERROR\n" else "COMPILE ERROR\n") ++ e.message)

/-- What is left when a machine stops: its output and, after a fault, the fault and the machine. -/
def reportStop (m : Machine) (output : List UInt8) : Outcome → Report
  | .fault f => ⟨1, output, f.message ++ "\n" ++ m.display ++ "\n"⟩
  | .running => .success output
  | .halted => .success output

/-- A processor that has a program installed, or the report that it cannot be. -/
def boot (program : List UInt8) : Except Report Processor :=
  match (Processor.empty memorySize).install program with
  | (p, .ok ()) => .ok p
  | (_, .error f) => .error (.failure ("Error: " ++ f.message))

/-- Runs a program on given input for at most a number of steps. -/
def reportRun (steps : Nat) (program input : List UInt8) : Report :=
  match boot program with
  | .error r => r
  | .ok p =>
    let host : ByteStream := ⟨input.map .byte, .empty none none⟩
    let (p, host, outcome) := p.run steps host
    reportStop p.toMachine host.sink.bytes.toList outcome

/-- The report of a tool on a file, if there is one, and given input. -/
def report (steps : Nat) (tool : Tool) (file : Option (List UInt8)) (input : List UInt8) : Report :=
  match file with
  | none => missingFile
  | some file =>
    match tool with
    | asm => onText file reportAsm
    | disasm => reportDisasm file
    | cpu => reportRun steps file input
    | nascal => onText file reportCompile

end Tool

end WordMachine
