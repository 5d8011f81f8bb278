import WordMachine.Machine.Fault
import WordMachine.Machine.Memory
import WordMachine.Proofs.Source.Operators
import WordMachine.Source.Tree

/-!
# Expressions over memory

The value of an expression whose variables lie in memory, each at an address of its own. The right
operand of an operator is evaluated before the left one, the address of a dereferenced pointer is the
pointer, and what reads outside memory or divides by zero has no value. Calls are not evaluated here.
-/

namespace WordMachine.Source

inductive Stop
  | divisionByZero
  | outOfBounds (address : Word)
  /-- a call, an unknown name or the address of something that has none -/
  | meaningless
deriving DecidableEq

def Stop.Matches : Stop → Fault → Prop
  | divisionByZero, .divisionByZero _ => True
  | outOfBounds a, .outOfBounds b 4 => a = b
  | _, _ => False

/-- The word at an address, which has to lie in memory. -/
def wordAt (memory : Memory) (a : Word) : Except Stop Word :=
  if memory.Holds a 4 then .ok (memory.read a 4) else .error (.outOfBounds a)

def quotient : Option Word → Except Stop Word
  | some v => .ok v
  | none => .error .divisionByZero

def located : Option Word → Except Stop Word
  | some a => .ok a
  | none => .error .meaningless

namespace Expr

variable (place : String → Option Word) (memory : Memory)

/-- The value of an expression in memory with variables at these places. -/
def evaluate : Expr → Except Stop Word
  | .int w => .ok w
  | .name x => located (place x) >>= wordAt memory
  | .binary op left right => do
    let y ← evaluate right
    let x ← evaluate left
    quotient (op.apply x y)
  | .unary .addressOf (.name x) => located (place x)
  | .unary .addressOf (.unary .dereference p) => evaluate p
  | .unary .addressOf _ => .error .meaningless
  | .unary .negate e => do
    let v ← evaluate e
    return -v
  | .unary .bitNot e => do
    let v ← evaluate e
    return ~~~v
  | .unary .logicalNot e => do
    let v ← evaluate e
    return truth (v = 0)
  | .unary .dereference p => evaluate p >>= wordAt memory
  | .call _ _ => .error .meaningless

/-- The addresses that an expression dereferences, in order, until it has a value or stops. -/
def dereferenced : Expr → List Word
  | .binary _ left right =>
    match evaluate place memory right with
    | .ok _ => dereferenced right ++ dereferenced left
    | .error _ => dereferenced right
  | .unary .addressOf (.unary .dereference p) => dereferenced p
  | .unary .addressOf _ => []
  | .unary .negate e => dereferenced e
  | .unary .bitNot e => dereferenced e
  | .unary .logicalNot e => dereferenced e
  | .unary .dereference p =>
    match evaluate place memory p with
    | .ok a => dereferenced p ++ [a]
    | .error _ => dereferenced p
  | _ => []

/-- How many words lie on the stack at most while an expression without calls is evaluated. -/
def pending : Expr → Nat
  | .binary _ left right => max right.pending (left.pending + 1)
  | .unary _ e => e.pending
  | _ => 0

end Expr

end WordMachine.Source
