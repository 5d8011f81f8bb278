import WordMachine.Opcode
import WordMachine.Register

/-!
# Instructions

An instruction is an opcode with operands of the shape that the opcode takes, so that every
instruction is well formed. The operands that are not registers are words in a program and numbers or
labels in assembly text: their type is a parameter.
-/

namespace WordMachine

/-- Operands of a shape, whose values have type `V`. -/
inductive Operands (V : Type) : Shape → Type
  | none : Operands V .simple
  | reg (first : Register) : Operands V .reg
  | regReg (first second : Register) : Operands V .regReg
  | regVal (first : Register) (value : V) : Operands V .regVal
  | label (target : V) : Operands V .label
deriving DecidableEq

namespace Operands

variable {V W : Type} {s : Shape}

def map (f : V → W) : Operands V s → Operands W s
  | none => none
  | reg a => reg a
  | regReg a b => regReg a b
  | regVal a v => regVal a (f v)
  | label t => label (f t)

def traverse {ε : Type} (f : V → Except ε W) : Operands V s → Except ε (Operands W s)
  | none => .ok none
  | reg a => .ok (reg a)
  | regReg a b => .ok (regReg a b)
  | regVal a v => (f v).map (regVal a)
  | label t => (f t).map label

def first? : Operands V s → Option Register
  | none | label _ => .none
  | reg a | regReg a _ | regVal a _ => some a

def second? : Operands V s → Option Register
  | regReg _ b => some b
  | _ => .none

def value? : Operands V s → Option V
  | regVal _ v | label v => some v
  | _ => .none

/-- The offset that a jump or call names. -/
def target? : Operands V s → Option V
  | label t => some t
  | _ => .none

/-- The operands in assembly text, each after a space. -/
def text (value : V → String) : Operands V s → String
  | none => ""
  | reg a => " " ++ a.name
  | regReg a b => " " ++ a.name ++ " " ++ b.name
  | regVal a v => " " ++ a.name ++ " " ++ value v
  | label t => " " ++ value t

end Operands

namespace Opcode

def size (o : Opcode) : Nat := 1 + o.shape.size

theorem size_pos (o : Opcode) : 0 < o.size := by
  simp only [size]
  omega

theorem size_le (o : Opcode) : o.size ≤ 6 := by
  cases o <;> decide

def text {V : Type} {s : Shape} (o : Opcode) (value : V → String) (x : Operands V s) : String :=
  o.mnemonic ++ x.text value

end Opcode

/-- An opcode with the operands it takes. -/
structure Instruction (V : Type) where
  opcode : Opcode
  operands : Operands V opcode.shape
deriving DecidableEq

namespace Instruction

variable {V W : Type}

def map (f : V → W) (i : Instruction V) : Instruction W := ⟨i.opcode, i.operands.map f⟩

def traverse {ε : Type} (f : V → Except ε W) (i : Instruction V) : Except ε (Instruction W) :=
  (i.operands.traverse f).map fun x => ⟨i.opcode, x⟩

def size (i : Instruction V) : Nat := i.opcode.size

def text (value : V → String) (i : Instruction V) : String := i.opcode.text value i.operands

@[simp] theorem size_map (f : V → W) (i : Instruction V) : (i.map f).size = i.size := rfl

theorem size_of_traverse {ε : Type} {f : V → Except ε W} {i : Instruction V} {j : Instruction W}
    (h : i.traverse f = .ok j) : j.size = i.size := by
  cases hx : i.operands.traverse f with
  | error e => simp [traverse, hx, Except.map] at h
  | ok x =>
    simp only [traverse, hx, Except.map, Except.ok.injEq] at h
    subst h
    rfl

end Instruction

end WordMachine
