import WordMachine.Source.Token

/-!
# Reading tokens

Between tokens stand blank characters and comments, which go from `#` to the end of the line. A number
or a word is as long as it can be. A minus is subtraction after a token that can end an operand, and
else negation. A lexer looks ahead by one token at most. A failed reading has passed what it has seen
and leaves the rest of the lexer as it was, but for the location of the latest token.
-/

namespace WordMachine.Source

/-- Passes blank characters and comments. The flag says whether a comment has begun. -/
def Cursor.skipGapFrom (location : Location) : (comment : Bool) → List Char → Cursor
  | _, [] => ⟨[], location⟩
  | true, c :: cs => skipGapFrom (location.after c) (c != '\n') cs
  | false, c :: cs =>
    if c = '#' then skipGapFrom (location.after c) true cs
    else if isBlank c then skipGapFrom (location.after c) false cs
    else ⟨c :: cs, location⟩

def Cursor.skipGap (k : Cursor) : Cursor := skipGapFrom k.location false k.rest

def isWordStart (c : Char) : Bool := c.isAlpha || c == '_'

def isWordPart (c : Char) : Bool := c.isAlphanum || c == '_'

def numberToken (digits : List Char) : Except Mistake TokenKind :=
  let n := Nat.ofDigitChars 10 digits 0
  if n < 4294967296 then .ok (.int (UInt32.ofNat n)) else .error (.integerOutOfRange (String.ofList digits))

def wordToken (word : String) : TokenKind :=
  match Keyword.ofText? word with
  | some k => .keyword k
  | none => .name word

/-- The token of a single character. The flag says whether it stands after an operand. -/
def symbolToken? (afterOperand : Bool) (c : Char) : Option TokenKind :=
  match c with
  | ';' => some .semicolon
  | '(' => some .leftParen
  | ')' => some .rightParen
  | ',' => some .comma
  | '-' => some (if afterOperand then .binary .subtract else .unary .negate)
  | c => ((BinaryOp.ofSymbol? c).map .binary).or ((UnaryOp.ofSymbol? c).map .unary)

/-- Reads the rest of a quoted character: any character and a quote. -/
def readQuoted (k : Cursor) : Except Mistake TokenKind × Cursor :=
  match k.next with
  | (none, k) => (.error .unexpectedEnd, k)
  | (some c, k) =>
    match k.next with
    | (none, k) => (.error .unexpectedEnd, k)
    | (some q, k) => (if q = '\x27' then .ok (.int c.val) else .error .invalidCharacter, k)

def readToken (afterOperand : Bool) (c : Char) (k : Cursor) : Except Mistake TokenKind × Cursor :=
  if c.isDigit then
    let (digits, k) := k.takeWhile Char.isDigit
    (numberToken digits, k)
  else if isWordStart c then
    let (word, k) := k.takeWhile isWordPart
    (.ok (wordToken (String.ofList word)), k)
  else
    let k := k.next.2
    if c = '\x27' then readQuoted k
    else if c = ':' ∧ k.peek = some '=' then (.ok .assign, k.next.2)
    else
      match symbolToken? afterOperand c with
      | some t => (.ok t, k)
      | none => (.error (.unexpectedSymbol c), k)

def readKind (afterOperand : Bool) (k : Cursor) : Except Mistake TokenKind × Cursor :=
  match k.peek with
  | none => (.ok .endOfText, k)
  | some c => readToken afterOperand c k

/-- A cursor, whether the latest token can end an operand, the token looked at but not taken, and the
start of the latest token. -/
structure Lexer where
  cursor : Cursor
  afterOperand : Bool
  peeked : Option Token
  location : Location

namespace Lexer

def ofText (text : String) : Lexer := ⟨.ofText text, false, none, .start⟩

def read (l : Lexer) : Except ParseError Token × Lexer :=
  let start := l.cursor.skipGap
  match readKind l.afterOperand start with
  | (.ok kind, cursor) =>
    (.ok ⟨kind, start.location⟩, ⟨cursor, kind.endsOperand, none, start.location⟩)
  | (.error mistake, cursor) =>
    (.error ⟨mistake, start.location⟩, ⟨cursor, l.afterOperand, none, start.location⟩)

def next (l : Lexer) : Except ParseError Token × Lexer :=
  match l.peeked with
  | some t => (.ok t, { l with peeked := none })
  | none => l.read

def peek (l : Lexer) : Except ParseError TokenKind × Lexer :=
  match l.peeked with
  | some t => (.ok t.kind, l)
  | none =>
    match l.read with
    | (.ok t, l) => (.ok t.kind, { l with peeked := some t })
    | (.error e, l) => (.error e, l)

/-- An error at the latest token. -/
def errorHere (l : Lexer) (mistake : Mistake) : ParseError := ⟨mistake, l.location⟩

end Lexer

/-! ### Reading passes characters -/

theorem length_skipGapFrom_le (location : Location) (comment : Bool) (cs : List Char) :
    (Cursor.skipGapFrom location comment cs).rest.length ≤ cs.length := by
  fun_induction Cursor.skipGapFrom location comment cs with
  | case1 => simp
  | case2 location c cs ih => exact Nat.le_succ_of_le ih
  | case3 location cs ih => exact Nat.le_succ_of_le ih
  | case4 location c cs _ _ ih => exact Nat.le_succ_of_le ih
  | case5 => simp

theorem length_next_le (k : Cursor) : k.next.2.rest.length ≤ k.rest.length := by
  rcases k with ⟨_ | ⟨c, cs⟩, location⟩ <;> simp [Cursor.next]

theorem length_readQuoted_le (k : Cursor) : (readQuoted k).2.rest.length ≤ k.rest.length := by
  rcases k with ⟨_ | ⟨c, _ | ⟨q, cs⟩⟩, location⟩ <;> simp [readQuoted, Cursor.next]
  omega

theorem length_dropWhile_lt {p : Char → Bool} {c : Char} (h : p c = true) (cs : List Char) :
    ((c :: cs).dropWhile p).length < (c :: cs).length := by
  rw [List.dropWhile_cons_of_pos h]
  exact Nat.lt_succ_of_le (List.dropWhile_sublist p).length_le

theorem isWordPart_of_isWordStart {c : Char} (h : isWordStart c = true) : isWordPart c = true := by
  simp only [isWordStart, isWordPart, Char.isAlphanum, Bool.or_eq_true] at h ⊢
  exact h.imp_left Or.inl

theorem length_readToken_lt (afterOperand : Bool) (c : Char) (cs : List Char)
    (location : Location) :
    (readToken afterOperand c ⟨c :: cs, location⟩).2.rest.length < (c :: cs).length := by
  have hquoted := length_readQuoted_le ⟨cs, location.after c⟩
  have hassign := length_next_le ⟨cs, location.after c⟩
  rw [readToken]
  split
  · exact length_dropWhile_lt ‹_› cs
  · split
    · exact length_dropWhile_lt (isWordPart_of_isWordStart ‹_›) cs
    · rw [Cursor.next_cons]
      dsimp only
      split
      · exact Nat.lt_succ_of_le hquoted
      · split
        · exact Nat.lt_succ_of_le hassign
        · split <;> exact Nat.lt_succ_self _

theorem length_readKind_lt {afterOperand : Bool} {k after : Cursor} {t : TokenKind}
    (h : readKind afterOperand k = (.ok t, after)) (ht : t ≠ .endOfText) :
    after.rest.length < k.rest.length := by
  rcases k with ⟨_ | ⟨c, cs⟩, location⟩
  · simp only [readKind, Cursor.peek, List.head?_nil, Prod.mk.injEq, Except.ok.injEq] at h
    exact absurd h.1.symm ht
  · have hlt := length_readToken_lt afterOperand c cs location
    simp only [readKind, Cursor.peek, List.head?_cons] at h
    rwa [h] at hlt

/-- A token that is read shortens the text, unless it is the end. -/
theorem length_read_lt {l after : Lexer} {t : Token} (h : l.read = (.ok t, after))
    (ht : t.kind ≠ .endOfText) : after.cursor.rest.length < l.cursor.rest.length := by
  have hgap := length_skipGapFrom_le l.cursor.location false l.cursor.rest
  rcases hk : readKind l.afterOperand l.cursor.skipGap with ⟨⟨mistake⟩ | ⟨kind⟩, cursor⟩
  · simp [Lexer.read, hk] at h
  · simp only [Lexer.read, hk, Prod.mk.injEq, Except.ok.injEq] at h
    obtain ⟨rfl, rfl⟩ := h
    exact Nat.lt_of_lt_of_le (length_readKind_lt hk ht) hgap

def Lexer.stream (l : Lexer) : TokenStream :=
  match h : l.read with
  | (.error e, _) => .failed e
  | (.ok t, after) =>
    if ht : t.kind = .endOfText then .endOfText t.location
    else
      have := length_read_lt h ht
      .token t after.stream
termination_by l.cursor.rest.length

def TokenStream.ofText (text : String) : TokenStream := (Lexer.ofText text).stream

end WordMachine.Source
