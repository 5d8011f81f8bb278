import WordMachine.Source.Grammar

/-!
# Derivations

The grammar as a relation between phrases and the lists of tokens that are derived from them. A phrase
carries the tree that its derivation builds; what a FOR leaves out has its default in the tree. The
minus of an operand and that of a sum are different tokens.

There are three readings of the grammar. As it is documented, a list does not end with a comma and any
expression may stand after FOR. A parser takes a comma at the end of a list and wants a name after FOR.
The strict reading has neither.
-/

namespace WordMachine.Source

def TokenKind.beginsOperand : TokenKind → Bool
  | int _ | name _ | unary _ | leftParen => true
  | _ => false

def TokenKind.beginsStatement : TokenKind → Bool
  | keyword .IF | keyword .WHILE | keyword .FOR => true
  | keyword .RETURN | keyword .BREAK | keyword .CONTINUE => true
  | k => k.beginsOperand

def Named (ks : List TokenKind) : Prop := ∃ x ls, ks = .name x :: ls

namespace Grammar

structure Dialect where
  /-- whether a list may end with a comma -/
  trailingComma : Bool
  /-- whether the expression after FOR may begin with something else than a name -/
  anyCounter : Bool

namespace Dialect

def documented : Dialect := ⟨false, true⟩

def accepted : Dialect := ⟨true, false⟩

def strict : Dialect := ⟨false, false⟩

end Dialect

/-- What tokens are derived from, with the tree that is built. -/
inductive Phrase
  | expression (e : Expr)
  | sum (e : Expr)
  | product (e : Expr)
  | atom (e : Expr)
  /-- expressions with commas between them, at least one -/
  | items (es : List Expr)
  | arguments (es : List Expr)
  /-- the expression after FOR -/
  | counter (e : Expr)
  /-- what stands between the assignment of a FOR and its DO -/
  | range (start condition step : Expr)
  | statement (s : Stmt)
  | block (ss : List Stmt)
  /-- names with commas between them, at least one -/
  | names (xs : List String)
  | parameters (xs : List String)
  | function (f : Function)
  | program (fs : List Function)

/-- The tokens are derived from a phrase. -/
inductive Derives (d : Dialect) : Phrase → List TokenKind → Prop
  | onlySum {e ks} : Derives d (.sum e) ks → Derives d (.expression e) ks
  | comparison {op left right ks ls} : op.level = .comparison →
      Derives d (.sum left) ks → Derives d (.sum right) ls →
      Derives d (.expression (.binary op left right)) (ks ++ .binary op :: ls)
  | onlyProduct {e ks} : Derives d (.product e) ks → Derives d (.sum e) ks
  | additive {op left right ks ls} : op.level = .additive →
      Derives d (.sum left) ks → Derives d (.product right) ls →
      Derives d (.sum (.binary op left right)) (ks ++ .binary op :: ls)
  | onlyAtom {e ks} : Derives d (.atom e) ks → Derives d (.product e) ks
  | multiplicative {op left right ks ls} : op.level = .multiplicative →
      Derives d (.product left) ks → Derives d (.atom right) ls →
      Derives d (.product (.binary op left right)) (ks ++ .binary op :: ls)
  | unary {op e ks} : Derives d (.atom e) ks → Derives d (.atom (.unary op e)) (.unary op :: ks)
  | int {w} : Derives d (.atom (.int w)) [.int w]
  | parens {e ks} :
      Derives d (.expression e) ks → Derives d (.atom e) (.leftParen :: (ks ++ [.rightParen]))
  | name {x} : Derives d (.atom (.name x)) [.name x]
  | call {f es ks} : Derives d (.arguments es) ks →
      Derives d (.atom (.call f es)) (.name f :: .leftParen :: (ks ++ [.rightParen]))
  | lastItem {e ks} : Derives d (.expression e) ks → Derives d (.items [e]) ks
  | lastItemComma {e ks} : d.trailingComma = true →
      Derives d (.expression e) ks → Derives d (.items [e]) (ks ++ [.comma])
  | moreItems {e es ks ls} : Derives d (.expression e) ks → Derives d (.items es) ls →
      Derives d (.items (e :: es)) (ks ++ .comma :: ls)
  | noArguments : Derives d (.arguments []) []
  | someArguments {es ks} : Derives d (.items es) ks → Derives d (.arguments es) ks
  | counter {e ks} : d.anyCounter = true ∨ Named ks →
      Derives d (.expression e) ks → Derives d (.counter e) ks
  | condition {e ks} : Derives d (.expression e) ks → Derives d (.range (.int 0) e (.int 1)) ks
  | startCondition {start e ks ls} :
      Derives d (.expression start) ks → Derives d (.expression e) ls →
      Derives d (.range start e (.int 1)) (ks ++ .comma :: ls)
  | startConditionStep {start e step ks ls ms} : Derives d (.expression start) ks →
      Derives d (.expression e) ls → Derives d (.expression step) ms →
      Derives d (.range start e step) (ks ++ .comma :: (ls ++ .comma :: ms))
  | ifOnly {e body ks ls} : Derives d (.expression e) ks → Derives d (.block body) ls →
      Derives d (.statement (.ifElse e body []))
        (.keyword .IF :: (ks ++ .keyword .THEN :: (ls ++ [.keyword .END, .semicolon])))
  | ifElse {e body otherwise ks ls ms} : Derives d (.expression e) ks →
      Derives d (.block body) ls → Derives d (.block otherwise) ms →
      Derives d (.statement (.ifElse e body otherwise)) (.keyword .IF ::
        (ks ++ .keyword .THEN :: (ls ++ .keyword .ELSE :: (ms ++ [.keyword .END, .semicolon]))))
  | whileDo {e body ks ls} : Derives d (.expression e) ks → Derives d (.block body) ls →
      Derives d (.statement (.whileDo e body))
        (.keyword .WHILE :: (ks ++ .keyword .DO :: (ls ++ [.keyword .END, .semicolon])))
  | forDo {counter start e step body ks ls ms} : Derives d (.counter counter) ks →
      Derives d (.range start e step) ls → Derives d (.block body) ms →
      Derives d (.statement (.forDo counter start e step body)) (.keyword .FOR ::
        (ks ++ .assign :: (ls ++ .keyword .DO :: (ms ++ [.keyword .END, .semicolon]))))
  | retNothing : Derives d (.statement (.ret none)) [.keyword .RETURN, .semicolon]
  | ret {e ks} : Derives d (.expression e) ks →
      Derives d (.statement (.ret (some e))) (.keyword .RETURN :: (ks ++ [.semicolon]))
  | breakLoop : Derives d (.statement .breakLoop) [.keyword .BREAK, .semicolon]
  | continueLoop : Derives d (.statement .continueLoop) [.keyword .CONTINUE, .semicolon]
  | assign {target e ks ls} : Derives d (.expression target) ks → Derives d (.expression e) ls →
      Derives d (.statement (.assign target e)) (ks ++ .assign :: (ls ++ [.semicolon]))
  | exec {e ks} : Derives d (.expression e) ks → Derives d (.statement (.exec e)) (ks ++ [.semicolon])
  | noStatements : Derives d (.block []) []
  | moreStatements {s ss ks ls} : Derives d (.statement s) ks → Derives d (.block ss) ls →
      Derives d (.block (s :: ss)) (ks ++ ls)
  | lastName {x} : Derives d (.names [x]) [.name x]
  | lastNameComma {x} : d.trailingComma = true → Derives d (.names [x]) [.name x, .comma]
  | moreNames {x xs ks} :
      Derives d (.names xs) ks → Derives d (.names (x :: xs)) (.name x :: .comma :: ks)
  | noParameters : Derives d (.parameters []) []
  | someParameters {xs ks} : Derives d (.names xs) ks → Derives d (.parameters xs) ks
  | function {f xs body ks ls} : Derives d (.parameters xs) ks → Derives d (.block body) ls →
      Derives d (.function ⟨f, xs, body⟩) (.keyword .DEF :: .name f :: .leftParen ::
        (ks ++ .rightParen :: (ls ++ [.keyword .END, .semicolon])))
  | noFunctions : Derives d (.program []) []
  | moreFunctions {f fs ks ls} : Derives d (.function f) ks → Derives d (.program fs) ls →
      Derives d (.program (f :: fs)) (ks ++ ls)

/-! ### How phrases begin -/

/-- The tokens begin as those of a phrase do. -/
def Phrase.Begins : Phrase → List TokenKind → Prop
  | expression _, ks | sum _, ks | product _, ks | atom _, ks | items _, ks | counter _, ks =>
    ∃ k ls, ks = k :: ls ∧ k.beginsOperand = true
  | arguments es, ks => ks = [] ∧ es = [] ∨ ∃ k ls, ks = k :: ls ∧ k.beginsOperand = true
  | statement _, ks => ∃ k ls, ks = k :: ls ∧ k.beginsStatement = true
  | function _, ks => ∃ ls, ks = .keyword .DEF :: ls
  | range .., _ | block _, _ | names _, _ | parameters _, _ | program _, _ => True

theorem beginsStatement_of_beginsOperand {k : TokenKind} (h : k.beginsOperand = true) :
    k.beginsStatement = true := by
  cases k <;> first | exact h | cases h

theorem Derives.begins {d : Dialect} {p : Phrase} {ks : List TokenKind} (h : Derives d p ks) :
    p.Begins ks := by
  induction h with
  | onlySum _ ih | onlyProduct _ ih | onlyAtom _ ih | lastItem _ ih | counter _ _ ih => exact ih
  | comparison _ _ _ ih | additive _ _ _ ih | multiplicative _ _ _ ih | lastItemComma _ _ ih
  | moreItems _ _ ih =>
    obtain ⟨k, ls, rfl, hk⟩ := ih
    exact ⟨k, _, rfl, hk⟩
  | unary | int | parens | name | call => exact ⟨_, _, rfl, rfl⟩
  | noArguments => exact .inl ⟨rfl, rfl⟩
  | someArguments _ ih => exact .inr ih
  | ifOnly | ifElse | whileDo | forDo | retNothing | ret | breakLoop | continueLoop =>
    exact ⟨_, _, rfl, rfl⟩
  | assign _ _ ih | exec _ ih =>
    obtain ⟨k, ls, rfl, hk⟩ := ih
    exact ⟨k, _, rfl, beginsStatement_of_beginsOperand hk⟩
  | function => exact ⟨_, rfl⟩
  | _ => trivial

theorem Derives.consArguments {d : Dialect} (hd : d.trailingComma = true) {e : Expr} {es : List Expr}
    {ks ls : List TokenKind} (he : Derives d (.expression e) ks) (hes : Derives d (.arguments es) ls) :
    Derives d (.arguments (e :: es)) (ks ++ .comma :: ls) := by
  cases hes with
  | noArguments => exact .someArguments (.lastItemComma hd he)
  | someArguments h => exact .someArguments (.moreItems he h)

theorem Derives.consParameters {d : Dialect} (hd : d.trailingComma = true) {x : String}
    {xs : List String} {ks : List TokenKind} (hxs : Derives d (.parameters xs) ks) :
    Derives d (.parameters (x :: xs)) (.name x :: .comma :: ks) := by
  cases hxs with
  | noParameters => exact .someParameters (.lastNameComma hd)
  | someParameters h => exact .someParameters (.moreNames h)

end Grammar

end WordMachine.Source
