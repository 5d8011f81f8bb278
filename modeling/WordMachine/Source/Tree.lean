import WordMachine.Source.Operator
import WordMachine.Word

/-!
# Programs as trees

A program is a list of functions, a function is made of statements and a statement of expressions.
What a function refers to is read off its body: its local variables are the names in it that are no
parameters, and its callees the functions it calls, each once and in the order of first appearance.
-/

namespace WordMachine.Source

/-- A function's name and its number of parameters, which together identify it. -/
structure Signature where
  name : String
  arity : Nat
deriving DecidableEq

namespace Signature

def text (s : Signature) : String := s.name ++ "/" ++ s.arity.repr

/-- The function with which a program starts. -/
def main : Signature := ⟨"main", 0⟩

/-- The function that writes a word. -/
def printchar : Signature := ⟨"printchar", 1⟩

/-- The function that reads a word. -/
def readchar : Signature := ⟨"readchar", 0⟩

/-- The functions that every program has. -/
def builtins : List Signature := [printchar, readchar]

end Signature

inductive Expr
  | int (value : Word)
  | name (text : String)
  | unary (op : UnaryOp) (operand : Expr)
  | binary (op : BinaryOp) (left right : Expr)
  | call (callee : String) (arguments : List Expr)

inductive Stmt
  | ifElse (condition : Expr) (body otherwise : List Stmt)
  | whileDo (condition : Expr) (body : List Stmt)
  | forDo (counter start condition step : Expr) (body : List Stmt)
  | ret (value : Option Expr)
  | breakLoop
  | continueLoop
  | assign (target value : Expr)
  /-- an expression evaluated for its effects -/
  | exec (expression : Expr)

structure Function where
  name : String
  parameters : List String
  body : List Stmt

/-! ### References -/

/-- A list without its later repetitions. -/
def firsts {α : Type} [DecidableEq α] : List α → List α
  | [] => []
  | a :: as => a :: (firsts as).filter (· ≠ a)

mutual

/-- The variables in an expression, in order. -/
def Expr.variables : Expr → List String
  | .int _ => []
  | .name text => [text]
  | .unary _ operand => operand.variables
  | .binary _ left right => left.variables ++ right.variables
  | .call _ arguments => Expr.allVariables arguments

def Expr.allVariables : List Expr → List String
  | [] => []
  | e :: es => e.variables ++ Expr.allVariables es

end

mutual

/-- The functions called in an expression, each after those called in its arguments. -/
def Expr.calls : Expr → List Signature
  | .int _ => []
  | .name _ => []
  | .unary _ operand => operand.calls
  | .binary _ left right => left.calls ++ right.calls
  | .call callee arguments => Expr.allCalls arguments ++ [⟨callee, arguments.length⟩]

def Expr.allCalls : List Expr → List Signature
  | [] => []
  | e :: es => e.calls ++ Expr.allCalls es

end

mutual

/-- The expressions of a statement, in order, those of the statements in it included. -/
def Stmt.expressions : Stmt → List Expr
  | .ifElse condition body otherwise =>
    condition :: (Stmt.allExpressions body ++ Stmt.allExpressions otherwise)
  | .whileDo condition body => condition :: Stmt.allExpressions body
  | .forDo counter start condition step body =>
    counter :: start :: condition :: step :: Stmt.allExpressions body
  | .ret value => value.toList
  | .breakLoop => []
  | .continueLoop => []
  | .assign target value => [target, value]
  | .exec expression => [expression]

def Stmt.allExpressions : List Stmt → List Expr
  | [] => []
  | s :: ss => s.expressions ++ Stmt.allExpressions ss

end

/-- The expression at the head of a statement: what it evaluates, assigns or tests. -/
def Stmt.expression? : Stmt → Option Expr
  | .ifElse condition _ _ => some condition
  | .whileDo condition _ => some condition
  | .forDo _ _ condition _ _ => some condition
  | .ret value => value
  | .breakLoop => none
  | .continueLoop => none
  | .assign _ value => some value
  | .exec expression => some expression

namespace Function

def signature (f : Function) : Signature := ⟨f.name, f.parameters.length⟩

def locals (f : Function) : List String :=
  (firsts (Expr.allVariables (Stmt.allExpressions f.body))).filter (· ∉ f.parameters)

def callees (f : Function) : List Signature :=
  firsts (Expr.allCalls (Stmt.allExpressions f.body))

end Function

end WordMachine.Source
