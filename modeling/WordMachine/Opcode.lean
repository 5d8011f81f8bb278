/-!
# Opcodes

The 38 operations of the machine, with the byte and the mnemonic of each and the shape of its
operands. Bytes and mnemonics name at most one opcode: reading them is inverse to writing them
(`ofCode?_eq_some_iff`, `ofMnemonic?_eq_some_iff`).
-/

namespace WordMachine

inductive Shape
  /-- no operand -/
  | simple
  /-- a register -/
  | reg
  /-- two registers -/
  | regReg
  /-- a register and a word -/
  | regVal
  /-- an offset in the program -/
  | label
deriving DecidableEq

namespace Shape

/-- How many operands a line of assembly text has. -/
def count : Shape → Nat
  | simple => 0
  | reg => 1
  | regReg => 2
  | regVal => 2
  | label => 1

/-- How many bytes the operands take: one for a register, four for a word or an offset. -/
def size : Shape → Nat
  | simple => 0
  | reg => 1
  | regReg => 2
  | regVal => 5
  | label => 4

end Shape

/-- The operations, in the order of their bytes. -/
inductive Opcode
  | nop | stat | set | input | output
  | store8 | store16 | store32 | load8 | load16 | load32
  | push | pop | mov
  | add | sub | smul | umul | sdiv | udiv | smod | umod | neg
  | and | or | xor | shift | not
  | call | ret | jmp | jiz | juz | jis | jus | jio | juo | jmpr
deriving DecidableEq

namespace Opcode

def all : List Opcode :=
  [nop, stat, set, input, output,
   store8, store16, store32, load8, load16, load32,
   push, pop, mov,
   add, sub, smul, umul, sdiv, udiv, smod, umod, neg,
   and, or, xor, shift, not,
   call, ret, jmp, jiz, juz, jis, jus, jio, juo, jmpr]

/-- The word that stands for an opcode in assembly text. -/
def mnemonic : Opcode → String
  | nop => "nop" | stat => "stat" | set => "set" | input => "in" | output => "out"
  | store8 => "store8" | store16 => "store16" | store32 => "store32"
  | load8 => "load8" | load16 => "load16" | load32 => "load32"
  | push => "push" | pop => "pop" | mov => "mov"
  | add => "add" | sub => "sub" | smul => "smul" | umul => "umul"
  | sdiv => "sdiv" | udiv => "udiv" | smod => "smod" | umod => "umod" | neg => "neg"
  | and => "and" | or => "or" | xor => "xor" | shift => "shift" | not => "not"
  | call => "call" | ret => "ret" | jmp => "jmp"
  | jiz => "jiz" | juz => "juz" | jis => "jis" | jus => "jus" | jio => "jio" | juo => "juo"
  | jmpr => "jmpr"

def shape : Opcode → Shape
  | nop | stat | ret => .simple
  | input | output | push | pop | neg | not | jmpr => .reg
  | set => .regVal
  | call | jmp | jiz | juz | jis | jus | jio | juo => .label
  | _ => .regReg

/-- Whether the zero and sign flags describe the first register afterwards. -/
def setsFlags : Opcode → Bool
  | add | sub | smul | umul | sdiv | udiv | smod | umod | neg => true
  | and | or | xor | shift | not => true
  | _ => false

/-- The byte of an opcode: its place among all opcodes. -/
def code (o : Opcode) : UInt8 := UInt8.ofNat (all.idxOf o)

def ofCode? (b : UInt8) : Option Opcode := all[b.toNat]?

/-- The opcode of a mnemonic, letter for letter. -/
def ofMnemonic? (text : String) : Option Opcode := all.find? fun o => o.mnemonic == text

/-! ### Reading and writing -/

theorem mem_all (o : Opcode) : o ∈ all := by
  cases o <;> decide

theorem idxOf_lt (o : Opcode) : all.idxOf o < 38 := List.idxOf_lt_length_iff.2 (mem_all o)

theorem toNat_code (o : Opcode) : o.code.toNat = all.idxOf o := by
  have := idxOf_lt o
  simp [code]
  omega

theorem ofCode?_code (o : Opcode) : ofCode? o.code = some o := by
  cases o <;> decide

theorem ofCode?_eq_some_iff {b : UInt8} {o : Opcode} : ofCode? b = some o ↔ b = o.code := by
  constructor
  · intro h
    obtain ⟨hb, rfl⟩ := List.getElem?_eq_some_iff.1 h
    have hnodup : all.Nodup := by decide
    apply UInt8.toNat_inj.1
    rw [toNat_code, hnodup.idxOf_getElem]
  · rintro rfl
    exact ofCode?_code o

theorem ofMnemonic?_mnemonic (o : Opcode) : ofMnemonic? o.mnemonic = some o := by
  cases o <;> decide

theorem ofMnemonic?_eq_some_iff {text : String} {o : Opcode} :
    ofMnemonic? text = some o ↔ text = o.mnemonic := by
  constructor
  · intro h
    have h' := List.find?_some (p := fun o : Opcode => o.mnemonic == text) h
    exact (beq_iff_eq.1 h').symm
  · rintro rfl
    exact ofMnemonic?_mnemonic o

end Opcode

end WordMachine
