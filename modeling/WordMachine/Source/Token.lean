import WordMachine.Source.Error
import WordMachine.Source.Operator
import WordMachine.Word

/-!
# Tokens

The tokens of a program's text. A stream is what a parser reads: tokens, and then for ever the end of
the text, or an error.
-/

namespace WordMachine.Source

/-- The words that cannot be names. -/
inductive Keyword
  | END | RETURN | DEF | IF | THEN | ELSE | WHILE | DO | BREAK | CONTINUE | FOR
deriving DecidableEq

namespace Keyword

def all : List Keyword := [END, RETURN, DEF, IF, THEN, ELSE, WHILE, DO, BREAK, CONTINUE, FOR]

def text : Keyword → String
  | END => "END" | RETURN => "RETURN" | DEF => "DEF"
  | IF => "IF" | THEN => "THEN" | ELSE => "ELSE"
  | WHILE => "WHILE" | DO => "DO" | BREAK => "BREAK" | CONTINUE => "CONTINUE" | FOR => "FOR"

/-- The keyword of a text, letter for letter. -/
def ofText? (text : String) : Option Keyword := all.find? fun k => k.text == text

theorem ofText?_text (k : Keyword) : ofText? k.text = some k := by
  cases k <;> decide

end Keyword

/-- A token without its place. The end of a text counts as one. -/
inductive TokenKind
  | int (value : Word)
  | name (text : String)
  | keyword (k : Keyword)
  | unary (op : UnaryOp)
  | binary (op : BinaryOp)
  | semicolon
  | leftParen
  | rightParen
  | comma
  | assign
  | endOfText
deriving DecidableEq

/-- Whether an operand can end with a token, so that minus after it is subtraction. -/
def TokenKind.endsOperand : TokenKind → Bool
  | int _ | name _ | rightParen => true
  | _ => false

structure Token where
  kind : TokenKind
  location : Location
deriving DecidableEq

/-- The tokens still to be read. -/
inductive TokenStream
  | endOfText (location : Location)
  | failed (e : ParseError)
  | token (t : Token) (rest : TokenStream)

def TokenStream.length : TokenStream → Nat
  | endOfText _ => 0
  | failed _ => 0
  | token _ rest => rest.length + 1

end WordMachine.Source
