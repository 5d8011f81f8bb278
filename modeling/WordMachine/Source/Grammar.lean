import WordMachine.Source.Lexer
import WordMachine.Source.Rule
import WordMachine.Source.Tree

/-!
# The grammar

```text
program    ::=  function*
function   ::=  DEF name "(" [name ("," name)* [","]] ")" statement* END ";"
statement  ::=  IF expr THEN statement* [ELSE statement*] END ";"
             |  WHILE expr DO statement* END ";"
             |  FOR expr ":=" expr ["," expr ["," expr]] DO statement* END ";"
             |  RETURN [expr] ";"  |  BREAK ";"  |  CONTINUE ";"
             |  expr [":=" expr] ";"
expr       ::=  sum [comparison sum]
sum        ::=  product (additive product)*
product    ::=  atom (multiplicative atom)*
atom       ::=  unary atom  |  int  |  "(" expr ")"  |  name ["(" [expr ("," expr)* [","]] ")"]
```

The expression after FOR begins with a name. A FOR with one expression after `:=` tests it and counts
from zero, and the step is one unless it is given. Parsing stops at the first token that cannot go on.
A rule calls another on fewer tokens, or in an order that comes to an end, so a bound on how deep
they call is enough for every text.
-/

namespace WordMachine.Source.Grammar

open Rule

mutual

def expression : Nat → Rule Expr
  | 0 => exhausted
  | n + 1 => do
    let left ← sum n
    let t ← peek
    match t.kind with
    | .binary op =>
      if op.level = .comparison then
        let _ ← next
        let right ← sum n
        return .binary op left right
      else return left
    | _ => return left

/-- Products joined by additive operators, to the left. -/
def sum : Nat → Rule Expr
  | 0 => exhausted
  | n + 1 => do
    let first ← product n
    sumFrom n first

def sumFrom : Nat → Expr → Rule Expr
  | 0, _ => exhausted
  | n + 1, left => do
    let t ← peek
    match t.kind with
    | .binary op =>
      if op.level = .additive then
        let _ ← next
        let right ← product n
        sumFrom n (.binary op left right)
      else return left
    | _ => return left

/-- Atoms joined by multiplicative operators, to the left. -/
def product : Nat → Rule Expr
  | 0 => exhausted
  | n + 1 => do
    let first ← atom n
    productFrom n first

def productFrom : Nat → Expr → Rule Expr
  | 0, _ => exhausted
  | n + 1, left => do
    let t ← peek
    match t.kind with
    | .binary op =>
      if op.level = .multiplicative then
        let _ ← next
        let right ← atom n
        productFrom n (.binary op left right)
      else return left
    | _ => return left

def atom : Nat → Rule Expr
  | 0 => exhausted
  | n + 1 => do
    let t ← next
    match t.kind with
    | .unary op =>
      let inner ← atom n
      return .unary op inner
    | .int value => return .int value
    | .leftParen =>
      let e ← expression n
      expect .rightParen ")"
      return e
    | .name text => named n text
    | .keyword _ | .binary _ | .semicolon | .rightParen | .comma | .assign | .endOfText =>
      fail (.expected "Expression") t.location

/-- A variable, or the call of a function, whose name has been read. -/
def named : Nat → String → Rule Expr
  | 0, _ => exhausted
  | n + 1, text => do
    let t ← peek
    if t.kind = .leftParen then
      let _ ← next
      let arguments ← arguments n
      return .call text arguments
    else return .name text

/-- The arguments of a call and the parenthesis after them. -/
def arguments : Nat → Rule (List Expr)
  | 0 => exhausted
  | n + 1 => do
    let t ← peek
    if t.kind = .rightParen then
      let _ ← next
      return []
    else
      let e ← expression n
      let u ← peek
      match u.kind with
      | .comma =>
        let _ ← next
        let es ← arguments n
        return e :: es
      | .rightParen =>
        let es ← arguments n
        return e :: es
      | _ => fail (.expected "Expression or )") u.location

end

def loopEnd : Rule Unit := do
  expect (.keyword .END) "END"
  expect .semicolon ";"

/-- The condition and step of a FOR whose first expression has been read, and its start. -/
def range (n : Nat) (first : Expr) : Rule (Expr × Expr × Expr) := do
  let t ← peek
  if t.kind = .comma then
    let _ ← next
    let condition ← expression n
    let u ← peek
    if u.kind = .comma then
      let _ ← next
      let step ← expression n
      return (first, condition, step)
    else return (first, condition, .int 1)
  else return (.int 0, first, .int 1)

mutual

def statement : Nat → Rule Stmt
  | 0 => exhausted
  | n + 1 => do
    let t ← peek
    match t.kind with
    | .keyword .WHILE =>
      let _ ← next
      let condition ← expression n
      expect (.keyword .DO) "DO"
      let body ← block n [.END]
      loopEnd
      return .whileDo condition body
    | .keyword .FOR =>
      let _ ← next
      let u ← peek
      match u.kind with
      | .name _ =>
        let counter ← expression n
        expect .assign ":="
        let first ← expression n
        let (start, condition, step) ← range n first
        expect (.keyword .DO) "DO"
        let body ← block n [.END]
        loopEnd
        return .forDo counter start condition step body
      | _ => fail (.expected "Name") u.location
    | .keyword .IF =>
      let _ ← next
      let condition ← expression n
      expect (.keyword .THEN) "THEN"
      let body ← block n [.END, .ELSE]
      let u ← next
      if u.kind = .keyword .ELSE then
        let otherwise ← block n [.END]
        let _ ← next
        expect .semicolon ";"
        return .ifElse condition body otherwise
      else
        expect .semicolon ";"
        return .ifElse condition body []
    | .keyword .RETURN =>
      let _ ← next
      let u ← peek
      if u.kind = .semicolon then
        expect .semicolon ";"
        return .ret none
      else
        let value ← expression n
        expect .semicolon ";"
        return .ret (some value)
    | .keyword .BREAK =>
      let _ ← next
      expect .semicolon ";"
      return .breakLoop
    | .keyword .CONTINUE =>
      let _ ← next
      expect .semicolon ";"
      return .continueLoop
    | _ =>
      let e ← expression n
      let u ← peek
      if u.kind = .assign then
        let _ ← next
        let value ← expression n
        expect .semicolon ";"
        return .assign e value
      else
        expect .semicolon ";"
        return .exec e

/-- Statements up to one of the keywords that end them, which is left in place. -/
def block : Nat → (ends : List Keyword) → Rule (List Stmt)
  | 0, _ => exhausted
  | n + 1, ends => do
    let t ← peek
    match t.kind with
    | .endOfText => fail .unexpectedEnd t.location
    | .keyword k =>
      if k ∈ ends then return []
      else
        let s ← statement n
        let ss ← block n ends
        return s :: ss
    | _ =>
      let s ← statement n
      let ss ← block n ends
      return s :: ss

end

def parameters : Nat → Rule (List String)
  | 0 => exhausted
  | n + 1 => do
    let t ← peek
    match t.kind with
    | .name text =>
      let _ ← next
      let u ← peek
      if u.kind = .comma then
        let _ ← next
        let names ← parameters n
        return text :: names
      else return [text]
    | _ => return []

def function (n : Nat) : Rule Function := do
  expect (.keyword .DEF) "DEF"
  let t ← next
  match t.kind with
  | .name name =>
    expect .leftParen "("
    let parameters ← parameters n
    expect .rightParen "Name or )"
    let body ← block n [.END]
    let _ ← next
    expect .semicolon ";"
    return ⟨name, parameters, body⟩
  | _ => fail (.expected "Name") t.location

/-- The functions up to the end of the text. -/
def program : Nat → Rule (List Function)
  | 0 => exhausted
  | n + 1 => do
    let t ← peek
    if t.kind = .endOfText then return []
    else
      let f ← function n
      let fs ← program n
      return f :: fs

end WordMachine.Source.Grammar
