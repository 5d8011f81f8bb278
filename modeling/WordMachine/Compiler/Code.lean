import WordMachine.Assembly.Line
import WordMachine.Compiler.Label

/-!
# Lines of compiled programs

The instructions that compiled programs are made of, as lines of assembly text.
-/

namespace WordMachine.Compiler

open Assembly

/-- The lines of a program or of a part of it. -/
abbrev Code := List Line

namespace Code

def label (l : Label) : Line := .label l.text

def set (r : Register) (n : Nat) : Line := .instruction ⟨.set, .regVal r (.number n)⟩

/-! ### Instructions with one register -/

def push (r : Register) : Line := .instruction ⟨.push, .reg r⟩
def pop (r : Register) : Line := .instruction ⟨.pop, .reg r⟩
def neg (r : Register) : Line := .instruction ⟨.neg, .reg r⟩
def not (r : Register) : Line := .instruction ⟨.not, .reg r⟩
def input (r : Register) : Line := .instruction ⟨.input, .reg r⟩
def output (r : Register) : Line := .instruction ⟨.output, .reg r⟩

/-! ### Instructions with two registers -/

def mov (a b : Register) : Line := .instruction ⟨.mov, .regReg a b⟩
def load (a b : Register) : Line := .instruction ⟨.load32, .regReg a b⟩
def store (a b : Register) : Line := .instruction ⟨.store32, .regReg a b⟩
def add (a b : Register) : Line := .instruction ⟨.add, .regReg a b⟩
def sub (a b : Register) : Line := .instruction ⟨.sub, .regReg a b⟩
def smul (a b : Register) : Line := .instruction ⟨.smul, .regReg a b⟩
def sdiv (a b : Register) : Line := .instruction ⟨.sdiv, .regReg a b⟩
def smod (a b : Register) : Line := .instruction ⟨.smod, .regReg a b⟩
def and (a b : Register) : Line := .instruction ⟨.and, .regReg a b⟩
def or (a b : Register) : Line := .instruction ⟨.or, .regReg a b⟩
def xor (a b : Register) : Line := .instruction ⟨.xor, .regReg a b⟩

/-! ### Jumps -/

def call (l : Label) : Line := .instruction ⟨.call, .label (.label l.text)⟩
def jmp (l : Label) : Line := .instruction ⟨.jmp, .label (.label l.text)⟩
def jiz (l : Label) : Line := .instruction ⟨.jiz, .label (.label l.text)⟩
def jis (l : Label) : Line := .instruction ⟨.jis, .label (.label l.text)⟩
def ret : Line := .instruction ⟨.ret, .none⟩

/-! ### Idioms -/

/-- Sets the zero and sign flags from a register. -/
def test (r : Register) : Line := and r r

/-- Moves the stack pointer up by words, through a register. -/
def release (r : Register) (words : Nat) : Code :=
  if words = 0 then [] else [set r (4 * words), add .stack r]

/-- Moves the stack pointer down by words, through a register. -/
def reserve (r : Register) (words : Nat) : Code :=
  if words = 0 then [] else [set r (4 * words), sub .stack r]

end Code

end WordMachine.Compiler
