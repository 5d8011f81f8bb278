import WordMachine.Source.Parse

/-!
# Names of functions

A name in a program's text is a word: letters, digits and underscores. So the name of every function
that parsing gives is one.
-/

namespace WordMachine.Source

def IsWord (text : String) : Prop := ∀ c ∈ text.toList, isWordPart c = true

instance (text : String) : Decidable (IsWord text) :=
  decidable_of_iff (text.toList.all isWordPart = true) List.all_eq_true

/-- A token that is a name is a word. -/
def TokenKind.Named (kind : TokenKind) : Prop := ∀ text, kind = .name text → IsWord text

def TokenStream.Named : TokenStream → Prop
  | endOfText _ => True
  | failed _ => True
  | token t rest => t.kind.Named ∧ rest.Named

/-! ### Tokens -/

theorem named_wordToken {word : List Char} (h : ∀ c ∈ word, isWordPart c = true) :
    (wordToken (String.ofList word)).Named := by
  intro text ht
  rw [wordToken] at ht
  split at ht
  · cases ht
  · cases ht
    simpa [IsWord] using h

theorem named_symbolToken? {afterOperand : Bool} {c : Char} {kind : TokenKind}
    (h : symbolToken? afterOperand c = some kind) : kind.Named := by
  rintro text rfl
  unfold symbolToken? at h
  split at h
  iterate 4 cases h
  · split at h <;> cases h
  · cases hb : BinaryOp.ofSymbol? c with
    | some op => simp [hb] at h
    | none => cases hu : UnaryOp.ofSymbol? c <;> simp [hb, hu] at h

theorem named_readQuoted {k after : Cursor} {kind : TokenKind}
    (h : readQuoted k = (.ok kind, after)) : kind.Named := by
  rintro text rfl
  unfold readQuoted at h
  split at h
  · cases h
  · split at h
    · cases h
    · split at h <;> cases h

theorem named_numberToken {digits : List Char} {kind : TokenKind}
    (h : numberToken digits = .ok kind) : kind.Named := by
  rintro text rfl
  simp only [numberToken] at h
  split at h <;> cases h

theorem named_readToken {afterOperand : Bool} {c : Char} {k after : Cursor} {kind : TokenKind}
    (h : readToken afterOperand c k = (.ok kind, after)) : kind.Named := by
  unfold readToken at h
  split at h
  · exact named_numberToken (Prod.mk.inj h).1
  · split at h
    · cases h
      exact named_wordToken fun c hc => List.all_eq_true.1 List.all_takeWhile c hc
    · dsimp only at h
      split at h
      · exact named_readQuoted h
      · split at h
        · cases h
          rintro text ⟨⟩
        · split at h
          · next t ht =>
            cases h
            exact named_symbolToken? ht
          · cases h

theorem named_read {l after : Lexer} {t : Token} (h : l.read = (.ok t, after)) : t.kind.Named := by
  unfold Lexer.read at h
  dsimp only at h
  split at h
  · next kind cursor hk =>
    cases h
    unfold readKind at hk
    split at hk
    · cases hk
      rintro text ⟨⟩
    · exact named_readToken hk
  · cases h

theorem named_stream (l : Lexer) : l.stream.Named := by
  fun_induction Lexer.stream l with
  | case1 l e after h => exact trivial
  | case2 l t after h ht => exact trivial
  | case3 l t after h ht hlt ih => exact ⟨named_read h, ih⟩

/-! ### Rules -/

namespace Rule

variable {α β : Type} {p : Rule α} {f : α → Rule β} {P : α → Prop} {Q : β → Prop}

/-- On a stream of words for names a parser leaves such a stream, and its value has a property. -/
def Names (p : Rule α) (P : α → Prop) : Prop :=
  ∀ s a t, s.Named → p s = some (.ok (a, t)) → t.Named ∧ P a

theorem names_pure {a : α} (h : P a) : Names (pure a) P := by
  intro s b t hs he
  cases he
  exact ⟨hs, h⟩

theorem names_bind (hp : Names p P) (hf : ∀ a, P a → Names (f a) Q) : Names (p >>= f) Q := by
  intro s b t hs he
  have hb : (p >>= f) s = andThen p f s := rfl
  rw [hb, andThen] at he
  split at he
  · next a u hu =>
    obtain ⟨hn, ha⟩ := hp s a u hs hu
    exact hf a ha u b t hn he
  · cases he
  · cases he

theorem names_fail {mistake : Mistake} {location : Location} : Names (fail mistake location) P := by
  intro s a t _ he
  cases he

theorem names_exhausted : Names (exhausted : Rule α) P := by
  intro s a t _ he
  cases he

theorem names_peek : Names peek fun t => t.kind.Named := by
  intro s a t hs he
  cases s with
  | endOfText location =>
    cases he
    exact ⟨trivial, by rintro text ⟨⟩⟩
  | failed e => cases he
  | token u rest =>
    cases he
    exact ⟨hs, hs.1⟩

theorem names_next : Names next fun t => t.kind.Named := by
  intro s a t hs he
  cases s with
  | endOfText location =>
    cases he
    exact ⟨trivial, by rintro text ⟨⟩⟩
  | failed e => cases he
  | token u rest =>
    cases he
    exact ⟨hs.2, hs.1⟩

theorem names_expect {kind : TokenKind} {what : String} : Names (expect kind what) fun _ => True := by
  refine names_bind names_next fun t _ => ?_
  split
  · exact names_pure trivial
  · exact names_fail

end Rule

namespace Grammar

open Rule

structure ExpressionNames (n : Nat) : Prop where
  expression : Names (expression n) fun _ => True
  sum : Names (sum n) fun _ => True
  sumFrom : ∀ left, Names (sumFrom n left) fun _ => True
  product : Names (product n) fun _ => True
  productFrom : ∀ left, Names (productFrom n left) fun _ => True
  atom : Names (atom n) fun _ => True
  named : ∀ text, Names (named n text) fun _ => True
  arguments : Names (arguments n) fun _ => True

theorem expressionNames (n : Nat) : ExpressionNames n := by
  induction n with
  | zero =>
    exact ⟨names_exhausted, names_exhausted, fun _ => names_exhausted, names_exhausted,
      fun _ => names_exhausted, names_exhausted, fun _ => names_exhausted, names_exhausted⟩
  | succ n ih =>
    have hdone : ∀ {e : Expr}, Names (pure e) fun _ => True := names_pure trivial
    constructor
    · unfold Grammar.expression
      refine names_bind ih.sum fun left _ => names_bind names_peek fun t _ => ?_
      split
      · split
        · exact names_bind names_next fun _ _ => names_bind ih.sum fun _ _ => hdone
        · exact hdone
      · exact hdone
    · unfold Grammar.sum
      exact names_bind ih.product fun _ _ => ih.sumFrom _
    · intro left
      unfold Grammar.sumFrom
      refine names_bind names_peek fun t _ => ?_
      split
      · split
        · exact names_bind names_next fun _ _ => names_bind ih.product fun _ _ => ih.sumFrom _
        · exact hdone
      · exact hdone
    · unfold Grammar.product
      exact names_bind ih.atom fun _ _ => ih.productFrom _
    · intro left
      unfold Grammar.productFrom
      refine names_bind names_peek fun t _ => ?_
      split
      · split
        · exact names_bind names_next fun _ _ => names_bind ih.atom fun _ _ => ih.productFrom _
        · exact hdone
      · exact hdone
    · unfold Grammar.atom
      refine names_bind names_next fun t _ => ?_
      split
      · exact names_bind ih.atom fun _ _ => hdone
      · exact hdone
      · exact names_bind ih.expression fun _ _ => names_bind names_expect fun _ _ => hdone
      · exact ih.named _
      all_goals exact names_fail
    · intro text
      unfold Grammar.named
      refine names_bind names_peek fun t _ => ?_
      split
      · exact names_bind names_next fun _ _ => names_bind ih.arguments fun _ _ => hdone
      · exact hdone
    · unfold Grammar.arguments
      refine names_bind names_peek fun t _ => ?_
      split
      · exact names_bind names_next fun _ _ => names_pure trivial
      · refine names_bind ih.expression fun e _ => names_bind names_peek fun u _ => ?_
        split
        · exact names_bind names_next fun _ _ => names_bind ih.arguments fun _ _ => names_pure trivial
        · exact names_bind ih.arguments fun _ _ => names_pure trivial
        · exact names_fail

theorem names_loopEnd : Names loopEnd fun _ => True :=
  names_bind names_expect fun _ _ => names_expect

theorem names_range (n : Nat) (first : Expr) : Names (range n first) fun _ => True := by
  have hexpr := (expressionNames n).expression
  unfold range
  refine names_bind names_peek fun t _ => ?_
  split
  · refine names_bind names_next fun _ _ => names_bind hexpr fun _ _ =>
      names_bind names_peek fun u _ => ?_
    split
    · exact names_bind names_next fun _ _ => names_bind hexpr fun _ _ => names_pure trivial
    · exact names_pure trivial
  · exact names_pure trivial

structure StatementNames (n : Nat) : Prop where
  statement : Names (statement n) fun _ => True
  block : ∀ ends, Names (block n ends) fun _ => True

theorem statementNames (n : Nat) : StatementNames n := by
  induction n with
  | zero => exact ⟨names_exhausted, fun _ => names_exhausted⟩
  | succ n ih =>
    have hexpr := (expressionNames n).expression
    have hdone : ∀ {s : Stmt}, Names (pure s) fun _ => True := names_pure trivial
    constructor
    · unfold Grammar.statement
      refine names_bind names_peek fun t _ => ?_
      split
      · exact names_bind names_next fun _ _ => names_bind hexpr fun _ _ =>
          names_bind names_expect fun _ _ => names_bind (ih.block _) fun _ _ =>
          names_bind names_loopEnd fun _ _ => hdone
      · refine names_bind names_next fun _ _ => names_bind names_peek fun u _ => ?_
        split
        · exact names_bind hexpr fun _ _ => names_bind names_expect fun _ _ =>
            names_bind hexpr fun _ _ => names_bind (names_range _ _) fun _ _ =>
            names_bind names_expect fun _ _ => names_bind (ih.block _) fun _ _ =>
            names_bind names_loopEnd fun _ _ => hdone
        · exact names_fail
      · refine names_bind names_next fun _ _ => names_bind hexpr fun _ _ =>
          names_bind names_expect fun _ _ => names_bind (ih.block _) fun _ _ =>
          names_bind names_next fun u _ => ?_
        split
        · exact names_bind (ih.block _) fun _ _ => names_bind names_next fun _ _ =>
            names_bind names_expect fun _ _ => hdone
        · exact names_bind names_expect fun _ _ => hdone
      · refine names_bind names_next fun _ _ => names_bind names_peek fun u _ => ?_
        split
        · exact names_bind names_expect fun _ _ => hdone
        · exact names_bind hexpr fun _ _ => names_bind names_expect fun _ _ => hdone
      · exact names_bind names_next fun _ _ => names_bind names_expect fun _ _ => hdone
      · exact names_bind names_next fun _ _ => names_bind names_expect fun _ _ => hdone
      · refine names_bind hexpr fun _ _ => names_bind names_peek fun u _ => ?_
        split
        · exact names_bind names_next fun _ _ => names_bind hexpr fun _ _ =>
            names_bind names_expect fun _ _ => hdone
        · exact names_bind names_expect fun _ _ => hdone
    · intro ends
      have hrest : Names (do
          let st ← Grammar.statement n
          let ss ← Grammar.block n ends
          return st :: ss) fun _ => True :=
        names_bind ih.statement fun _ _ => names_bind (ih.block ends) fun _ _ => names_pure trivial
      unfold Grammar.block
      refine names_bind names_peek fun t _ => ?_
      split
      · exact names_fail
      · split
        · exact names_pure trivial
        · exact hrest
      · exact hrest

theorem names_parameters (n : Nat) : Names (parameters n) fun _ => True := by
  induction n with
  | zero => exact names_exhausted
  | succ n ih =>
    unfold parameters
    refine names_bind names_peek fun t _ => ?_
    split
    · refine names_bind names_next fun _ _ => names_bind names_peek fun u _ => ?_
      split
      · exact names_bind names_next fun _ _ => names_bind ih fun _ _ => names_pure trivial
      · exact names_pure trivial
    · exact names_pure trivial

theorem names_function (n : Nat) : Names (function n) fun f => IsWord f.name := by
  unfold function
  refine names_bind names_expect fun _ _ => names_bind names_next fun t ht => ?_
  split
  · next name hk =>
    exact names_bind names_expect fun _ _ => names_bind (names_parameters n) fun _ _ =>
      names_bind names_expect fun _ _ => names_bind ((statementNames n).block _) fun _ _ =>
      names_bind names_next fun _ _ => names_bind names_expect fun _ _ => names_pure (ht name hk)
  · exact names_fail

theorem names_program (n : Nat) : Names (program n) fun fs => ∀ f ∈ fs, IsWord f.name := by
  induction n with
  | zero => exact names_exhausted
  | succ n ih =>
    unfold program
    refine names_bind names_peek fun t _ => ?_
    split
    · exact names_pure (by simp)
    · exact names_bind (names_function n) fun f hf => names_bind ih fun fs hfs =>
        names_pure (List.forall_mem_cons.2 ⟨hf, hfs⟩)

end Grammar

theorem program_of_parse {text : String} {fs : List Function} (h : parse text = .ok fs) :
    ∃ t, Grammar.program (Grammar.bound (TokenStream.ofText text)) (TokenStream.ofText text) =
      some (.ok (fs, t)) := by
  simp only [parse] at h
  cases hg : (Grammar.program (Grammar.bound (TokenStream.ofText text)) (TokenStream.ofText text)).get
      (Grammar.isSome_program _) with
  | error e =>
    rw [hg] at h
    cases h
  | ok p =>
    rcases p with ⟨gs, t⟩
    rw [hg] at h
    cases h
    exact ⟨t, by rw [← hg, Option.some_get]⟩

theorem isWord_of_parse {text : String} {fs : List Function} (h : parse text = .ok fs) :
    ∀ f ∈ fs, IsWord f.name := by
  obtain ⟨t, hs⟩ := program_of_parse h
  exact (Grammar.names_program _ _ _ _ (named_stream _) hs).2

end WordMachine.Source
