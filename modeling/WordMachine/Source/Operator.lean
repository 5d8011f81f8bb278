/-!
# Operators

The operators of the language, each written with one character. Binary operators bind at three levels.
Minus is the only sign of two operators, one of each kind.
-/

namespace WordMachine.Source

/-- How tightly a binary operator binds, from the loosest level on. -/
inductive Level
  | comparison
  | additive
  | multiplicative
deriving DecidableEq

/-- The operators with two operands. -/
inductive BinaryOp
  | equal | less | greater
  | add | subtract | bitOr | bitXor
  | multiply | divide | remainder | bitAnd
deriving DecidableEq

namespace BinaryOp

def all : List BinaryOp :=
  [equal, less, greater, add, subtract, bitOr, bitXor, multiply, divide, remainder, bitAnd]

def symbol : BinaryOp → Char
  | equal => '=' | less => '<' | greater => '>'
  | add => '+' | subtract => '-' | bitOr => '|' | bitXor => '^'
  | multiply => '*' | divide => '/' | remainder => '%' | bitAnd => '&'

def level : BinaryOp → Level
  | equal | less | greater => .comparison
  | add | subtract | bitOr | bitXor => .additive
  | multiply | divide | remainder | bitAnd => .multiplicative

def ofSymbol? (c : Char) : Option BinaryOp := all.find? fun o => o.symbol == c

theorem ofSymbol?_symbol (o : BinaryOp) : ofSymbol? o.symbol = some o := by
  cases o <;> decide

end BinaryOp

/-- The operators with one operand, which follows them. -/
inductive UnaryOp
  | negate | bitNot | logicalNot
  /-- the word at an address -/
  | dereference
  /-- the address of a variable, or the address that is dereferenced -/
  | addressOf
deriving DecidableEq

namespace UnaryOp

def all : List UnaryOp := [negate, bitNot, logicalNot, dereference, addressOf]

def symbol : UnaryOp → Char
  | negate => '-' | bitNot => '~' | logicalNot => '!' | dereference => '$' | addressOf => '@'

def ofSymbol? (c : Char) : Option UnaryOp := all.find? fun o => o.symbol == c

theorem ofSymbol?_symbol (o : UnaryOp) : ofSymbol? o.symbol = some o := by
  cases o <;> decide

end UnaryOp

end WordMachine.Source
