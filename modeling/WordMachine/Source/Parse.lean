import WordMachine.Source.Grammar

/-!
# Parsing a program

Eight calls for each token, and eight more, are a bound that no text reaches: every rule of the
grammar has a result on every stream within it (`isSome_program`). So parsing gives either functions
or an error.
-/

namespace WordMachine.Source.Grammar

open Rule

/-- The stream after a parser has run is shorter than before. -/
def Shorter {α : Type} (s : TokenStream) (_ : α) (after : TokenStream) : Prop := after.length < s.length

/-- The stream after a parser has run is no longer than before. -/
def NotLonger {α : Type} (s : TokenStream) (_ : α) (after : TokenStream) : Prop := after.length ≤ s.length

structure ExpressionBound (n : Nat) : Prop where
  expression : ∀ s : TokenStream, 8 * s.length + 4 ≤ n → Ensures (expression n) s (Shorter s)
  sum : ∀ s : TokenStream, 8 * s.length + 3 ≤ n → Ensures (sum n) s (Shorter s)
  sumFrom : ∀ (s : TokenStream) left, 8 * s.length + 1 ≤ n → Ensures (sumFrom n left) s (NotLonger s)
  product : ∀ s : TokenStream, 8 * s.length + 2 ≤ n → Ensures (product n) s (Shorter s)
  productFrom : ∀ (s : TokenStream) left, 8 * s.length + 1 ≤ n →
    Ensures (productFrom n left) s (NotLonger s)
  atom : ∀ s : TokenStream, 8 * s.length + 1 ≤ n → Ensures (atom n) s (Shorter s)
  named : ∀ (s : TokenStream) text, 8 * s.length + 1 ≤ n → Ensures (named n text) s (NotLonger s)
  arguments : ∀ s : TokenStream, 8 * s.length + 5 ≤ n → Ensures (arguments n) s (Shorter s)

theorem ensures_take {s : TokenStream} (h : 0 < s.length) : Ensures next s (Shorter s) :=
  ensures_mono (ensures_next s) fun _ _ h' => h'.2.1 h

theorem expressionBound (n : Nat) : ExpressionBound n := by
  induction n with
  | zero => constructor <;> intros <;> omega
  | succ n ih =>
    constructor
    · intro s hs
      unfold Grammar.expression
      refine ensures_bind (ih.sum s (by omega)) fun left s₁ (h₁ : s₁.length < s.length) => ?_
      refine ensures_bind (ensures_peek s₁) fun t s₂ ⟨e₂, hpos⟩ => ?_
      subst e₂
      split
      · next op hk =>
        split
        · have hp := hpos (by simp [hk])
          refine ensures_bind (ensures_take hp) fun _ s₃ (h₃ : s₃.length < s₂.length) => ?_
          refine ensures_bind (ih.sum s₃ (by omega)) fun right s₄ (h₄ : s₄.length < s₃.length) => ?_
          exact ensures_succeed (by simp only [Shorter]; omega)
        · exact ensures_succeed h₁
      · exact ensures_succeed h₁
    · intro s hs
      unfold Grammar.sum
      refine ensures_bind (ih.product s (by omega)) fun first s₁ (h₁ : s₁.length < s.length) => ?_
      exact ensures_mono (ih.sumFrom s₁ first (by omega)) fun _ _ h =>
        Nat.lt_of_le_of_lt h h₁
    · intro s left hs
      unfold Grammar.sumFrom
      refine ensures_bind (ensures_peek s) fun t s₂ ⟨e₂, hpos⟩ => ?_
      subst e₂
      split
      · next op hk =>
        split
        · have hp := hpos (by simp [hk])
          refine ensures_bind (ensures_take hp) fun _ s₃ (h₃ : s₃.length < s₂.length) => ?_
          refine ensures_bind (ih.product s₃ (by omega)) fun right s₄ (h₄ : s₄.length < s₃.length) => ?_
          refine ensures_mono (ih.sumFrom s₄ _ (by omega)) fun _ t (h : t.length ≤ s₄.length) => ?_
          simp only [NotLonger]
          omega
        · exact ensures_succeed (Nat.le_refl _)
      · exact ensures_succeed (Nat.le_refl _)
    · intro s hs
      unfold Grammar.product
      refine ensures_bind (ih.atom s (by omega)) fun first s₁ (h₁ : s₁.length < s.length) => ?_
      exact ensures_mono (ih.productFrom s₁ first (by omega)) fun _ _ h =>
        Nat.lt_of_le_of_lt h h₁
    · intro s left hs
      unfold Grammar.productFrom
      refine ensures_bind (ensures_peek s) fun t s₂ ⟨e₂, hpos⟩ => ?_
      subst e₂
      split
      · next op hk =>
        split
        · have hp := hpos (by simp [hk])
          refine ensures_bind (ensures_take hp) fun _ s₃ (h₃ : s₃.length < s₂.length) => ?_
          refine ensures_bind (ih.atom s₃ (by omega)) fun right s₄ (h₄ : s₄.length < s₃.length) => ?_
          refine ensures_mono (ih.productFrom s₄ _ (by omega))
            fun _ t (h : t.length ≤ s₄.length) => ?_
          simp only [NotLonger]
          omega
        · exact ensures_succeed (Nat.le_refl _)
      · exact ensures_succeed (Nat.le_refl _)
    · intro s hs
      unfold Grammar.atom
      refine ensures_bind (ensures_next s) fun t s₁ ⟨_, hlt, hpos⟩ => ?_
      split
      · next op hk =>
        have h₁ := hlt (hpos (by simp [hk]))
        refine ensures_bind (ih.atom s₁ (by omega)) fun operand s₂ (h₂ : s₂.length < s₁.length) => ?_
        exact ensures_succeed (Nat.lt_trans h₂ h₁)
      · next value hk =>
        exact ensures_succeed (hlt (hpos (by simp [hk])))
      · next hk =>
        have h₁ := hlt (hpos (by simp [hk]))
        refine ensures_bind (ih.expression s₁ (by omega)) fun e s₂ (h₂ : s₂.length < s₁.length) => ?_
        refine ensures_bind (ensures_expect s₂ (by simp)) fun _ s₃ h₃ => ?_
        exact ensures_succeed (by simp only [Shorter]; omega)
      · next text hk =>
        have h₁ := hlt (hpos (by simp [hk]))
        exact ensures_mono (ih.named s₁ text (by omega)) fun _ _ h => Nat.lt_of_le_of_lt h h₁
      all_goals exact ensures_fail
    · intro s text hs
      unfold Grammar.named
      refine ensures_bind (ensures_peek s) fun t s₁ ⟨e₁, hpos⟩ => ?_
      subst e₁
      split
      · next hk =>
        have hp := hpos (by simp [hk])
        refine ensures_bind (ensures_take hp) fun _ s₂ (h₂ : s₂.length < s₁.length) => ?_
        refine ensures_bind (ih.arguments s₂ (by omega)) fun es s₃ (h₃ : s₃.length < s₂.length) => ?_
        exact ensures_succeed (Nat.le_of_lt (Nat.lt_trans h₃ h₂))
      · exact ensures_succeed (Nat.le_refl _)
    · intro s hs
      unfold Grammar.arguments
      refine ensures_bind (ensures_peek s) fun t s₁ ⟨e₁, hpos⟩ => ?_
      subst e₁
      split
      · next hk =>
        have hp := hpos (by simp [hk])
        refine ensures_bind (ensures_take hp) fun _ s₂ (h₂ : s₂.length < s₁.length) => ?_
        exact ensures_succeed h₂
      · refine ensures_bind (ih.expression s₁ (by omega))
          fun e s₂ (h₂ : s₂.length < s₁.length) => ?_
        refine ensures_bind (ensures_peek s₂) fun u s₃ ⟨e₃, hpos₃⟩ => ?_
        subst e₃
        split
        · next hu =>
          have hp := hpos₃ (by simp [hu])
          refine ensures_bind (ensures_take hp) fun _ s₄ (h₄ : s₄.length < s₃.length) => ?_
          refine ensures_bind (ih.arguments s₄ (by omega))
            fun es s₅ (h₅ : s₅.length < s₄.length) => ?_
          exact ensures_succeed (by simp only [Shorter]; omega)
        · refine ensures_bind (ih.arguments s₃ (by omega))
            fun es s₄ (h₄ : s₄.length < s₃.length) => ?_
          exact ensures_succeed (Nat.lt_trans h₄ h₂)
        · exact ensures_fail

theorem ensures_loopEnd (s : TokenStream) : Ensures loopEnd s (Shorter s) := by
  refine ensures_bind (ensures_expect s (by simp)) fun _ s₁ h₁ => ?_
  exact ensures_mono (ensures_expect s₁ (by simp)) fun _ _ h => Nat.lt_trans h h₁

theorem ensures_range {n : Nat} {s : TokenStream} {first : Expr} (hs : 8 * s.length + 4 ≤ n) :
    Ensures (range n first) s (NotLonger s) := by
  unfold range
  refine ensures_bind (ensures_peek s) fun t s₁ ⟨e₁, hpos⟩ => ?_
  subst e₁
  split
  · next hk =>
    have hp := hpos (by simp [hk])
    refine ensures_bind (ensures_take hp) fun _ s₂ (h₂ : s₂.length < s₁.length) => ?_
    refine ensures_bind ((expressionBound n).expression s₂ (by omega))
      fun condition s₃ (h₃ : s₃.length < s₂.length) => ?_
    refine ensures_bind (ensures_peek s₃) fun u s₄ ⟨e₄, hpos₄⟩ => ?_
    subst e₄
    split
    · next hu =>
      have hp := hpos₄ (by simp [hu])
      refine ensures_bind (ensures_take hp) fun _ s₅ (h₅ : s₅.length < s₄.length) => ?_
      refine ensures_bind ((expressionBound n).expression s₅ (by omega))
        fun step s₆ (h₆ : s₆.length < s₅.length) => ?_
      exact ensures_succeed (by simp only [NotLonger]; omega)
    · exact ensures_succeed (by simp only [NotLonger]; omega)
  · exact ensures_succeed (Nat.le_refl _)

structure StatementBound (n : Nat) : Prop where
  statement : ∀ s : TokenStream, 8 * s.length + 5 ≤ n → Ensures (statement n) s (Shorter s)
  block : ∀ (s : TokenStream) ends, 8 * s.length + 6 ≤ n → Ensures (block n ends) s (NotLonger s)

theorem statementBound (n : Nat) : StatementBound n := by
  induction n with
  | zero => constructor <;> intros <;> omega
  | succ n ih =>
    have hexpr := (expressionBound n).expression
    constructor
    · intro s hs
      unfold Grammar.statement
      refine ensures_bind (ensures_peek s) fun t s₀ ⟨e₀, hpos⟩ => ?_
      subst e₀
      split
      · next hk =>
        have hp := hpos (by simp [hk])
        refine ensures_bind (ensures_take hp) fun _ s₁ (h₁ : s₁.length < s₀.length) => ?_
        refine ensures_bind (hexpr s₁ (by omega)) fun _ s₂ (h₂ : s₂.length < s₁.length) => ?_
        refine ensures_bind (ensures_expect s₂ (by simp)) fun _ s₃ h₃ => ?_
        refine ensures_bind (ih.block s₃ _ (by omega)) fun _ s₄ (h₄ : s₄.length ≤ s₃.length) => ?_
        refine ensures_bind (ensures_loopEnd s₄) fun _ s₅ (h₅ : s₅.length < s₄.length) => ?_
        exact ensures_succeed (by simp only [Shorter]; omega)
      · next hk =>
        have hp := hpos (by simp [hk])
        refine ensures_bind (ensures_take hp) fun _ s₁ (h₁ : s₁.length < s₀.length) => ?_
        refine ensures_bind (ensures_peek s₁) fun u s₂ ⟨e₂, _⟩ => ?_
        subst e₂
        split
        · refine ensures_bind (hexpr s₂ (by omega)) fun _ s₃ (h₃ : s₃.length < s₂.length) => ?_
          refine ensures_bind (ensures_expect s₃ (by simp)) fun _ s₄ h₄ => ?_
          refine ensures_bind (hexpr s₄ (by omega)) fun _ s₅ (h₅ : s₅.length < s₄.length) => ?_
          refine ensures_bind (ensures_range (by omega)) fun _ s₆ (h₆ : s₆.length ≤ s₅.length) => ?_
          refine ensures_bind (ensures_expect s₆ (by simp)) fun _ s₇ h₇ => ?_
          refine ensures_bind (ih.block s₇ _ (by omega)) fun _ s₈ (h₈ : s₈.length ≤ s₇.length) => ?_
          refine ensures_bind (ensures_loopEnd s₈) fun _ s₉ (h₉ : s₉.length < s₈.length) => ?_
          exact ensures_succeed (by simp only [Shorter]; omega)
        · exact ensures_fail
      · next hk =>
        have hp := hpos (by simp [hk])
        refine ensures_bind (ensures_take hp) fun _ s₁ (h₁ : s₁.length < s₀.length) => ?_
        refine ensures_bind (hexpr s₁ (by omega)) fun _ s₂ (h₂ : s₂.length < s₁.length) => ?_
        refine ensures_bind (ensures_expect s₂ (by simp)) fun _ s₃ h₃ => ?_
        refine ensures_bind (ih.block s₃ _ (by omega)) fun _ s₄ (h₄ : s₄.length ≤ s₃.length) => ?_
        refine ensures_bind (ensures_next s₄) fun u s₅ ⟨h₅, _, _⟩ => ?_
        split
        · refine ensures_bind (ih.block s₅ _ (by omega)) fun _ s₆ (h₆ : s₆.length ≤ s₅.length) => ?_
          refine ensures_bind (ensures_next s₆) fun _ s₇ ⟨h₇, _, _⟩ => ?_
          refine ensures_bind (ensures_expect s₇ (by simp)) fun _ s₈ h₈ => ?_
          exact ensures_succeed (by simp only [Shorter]; omega)
        · refine ensures_bind (ensures_expect s₅ (by simp)) fun _ s₆ h₆ => ?_
          exact ensures_succeed (by simp only [Shorter]; omega)
      · next hk =>
        have hp := hpos (by simp [hk])
        refine ensures_bind (ensures_take hp) fun _ s₁ (h₁ : s₁.length < s₀.length) => ?_
        refine ensures_bind (ensures_peek s₁) fun u s₂ ⟨e₂, _⟩ => ?_
        subst e₂
        split
        · refine ensures_bind (ensures_expect s₂ (by simp)) fun _ s₃ h₃ => ?_
          exact ensures_succeed (Nat.lt_trans h₃ h₁)
        · refine ensures_bind (hexpr s₂ (by omega)) fun _ s₃ (h₃ : s₃.length < s₂.length) => ?_
          refine ensures_bind (ensures_expect s₃ (by simp)) fun _ s₄ h₄ => ?_
          exact ensures_succeed (by simp only [Shorter]; omega)
      · next hk =>
        have hp := hpos (by simp [hk])
        refine ensures_bind (ensures_take hp) fun _ s₁ (h₁ : s₁.length < s₀.length) => ?_
        refine ensures_bind (ensures_expect s₁ (by simp)) fun _ s₂ h₂ => ?_
        exact ensures_succeed (Nat.lt_trans h₂ h₁)
      · next hk =>
        have hp := hpos (by simp [hk])
        refine ensures_bind (ensures_take hp) fun _ s₁ (h₁ : s₁.length < s₀.length) => ?_
        refine ensures_bind (ensures_expect s₁ (by simp)) fun _ s₂ h₂ => ?_
        exact ensures_succeed (Nat.lt_trans h₂ h₁)
      · refine ensures_bind (hexpr s₀ (by omega)) fun _ s₁ (h₁ : s₁.length < s₀.length) => ?_
        refine ensures_bind (ensures_peek s₁) fun u s₂ ⟨e₂, hpos₂⟩ => ?_
        subst e₂
        split
        · next hu =>
          have hp := hpos₂ (by simp [hu])
          refine ensures_bind (ensures_take hp) fun _ s₃ (h₃ : s₃.length < s₂.length) => ?_
          refine ensures_bind (hexpr s₃ (by omega)) fun _ s₄ (h₄ : s₄.length < s₃.length) => ?_
          refine ensures_bind (ensures_expect s₄ (by simp)) fun _ s₅ h₅ => ?_
          exact ensures_succeed (by simp only [Shorter]; omega)
        · refine ensures_bind (ensures_expect s₂ (by simp)) fun _ s₃ h₃ => ?_
          exact ensures_succeed (Nat.lt_trans h₃ h₁)
    · intro s ends hs
      have hrest : Ensures (do
          let st ← Grammar.statement n
          let ss ← Grammar.block n ends
          return st :: ss) s (NotLonger s) := by
        refine ensures_bind (ih.statement s (by omega)) fun _ s₁ (h₁ : s₁.length < s.length) => ?_
        refine ensures_bind (ih.block s₁ ends (by omega))
          fun _ s₂ (h₂ : s₂.length ≤ s₁.length) => ?_
        exact ensures_succeed (by simp only [NotLonger]; omega)
      unfold Grammar.block
      refine ensures_bind (ensures_peek s) fun t s₀ ⟨e₀, _⟩ => ?_
      subst e₀
      split
      · exact ensures_fail
      · split
        · exact ensures_succeed (Nat.le_refl _)
        · exact hrest
      · exact hrest

theorem ensures_parameters (n : Nat) :
    ∀ s : TokenStream, 8 * s.length + 1 ≤ n → Ensures (parameters n) s (NotLonger s) := by
  induction n with
  | zero => intros; omega
  | succ n ih =>
    intro s hs
    unfold parameters
    refine ensures_bind (ensures_peek s) fun t s₀ ⟨e₀, hpos⟩ => ?_
    subst e₀
    split
    · next text hk =>
      have hp := hpos (by simp [hk])
      refine ensures_bind (ensures_take hp) fun _ s₁ (h₁ : s₁.length < s₀.length) => ?_
      refine ensures_bind (ensures_peek s₁) fun u s₂ ⟨e₂, hpos₂⟩ => ?_
      subst e₂
      split
      · next hu =>
        have hp := hpos₂ (by simp [hu])
        refine ensures_bind (ensures_take hp) fun _ s₃ (h₃ : s₃.length < s₂.length) => ?_
        refine ensures_bind (ih s₃ (by omega)) fun _ s₄ (h₄ : s₄.length ≤ s₃.length) => ?_
        exact ensures_succeed (by simp only [NotLonger]; omega)
      · exact ensures_succeed (Nat.le_of_lt h₁)
    · exact ensures_succeed (Nat.le_refl _)

theorem ensures_function {n : Nat} (s : TokenStream) (hs : 8 * s.length + 6 ≤ n) :
    Ensures (function n) s (Shorter s) := by
  unfold function
  refine ensures_bind (ensures_expect s (by simp)) fun _ s₁ h₁ => ?_
  refine ensures_bind (ensures_next s₁) fun t s₂ ⟨h₂, _, _⟩ => ?_
  split
  · refine ensures_bind (ensures_expect s₂ (by simp)) fun _ s₃ h₃ => ?_
    refine ensures_bind (ensures_parameters n s₃ (by omega))
      fun _ s₄ (h₄ : s₄.length ≤ s₃.length) => ?_
    refine ensures_bind (ensures_expect s₄ (by simp)) fun _ s₅ h₅ => ?_
    refine ensures_bind ((statementBound n).block s₅ _ (by omega))
      fun _ s₆ (h₆ : s₆.length ≤ s₅.length) => ?_
    refine ensures_bind (ensures_next s₆) fun _ s₇ ⟨h₇, _, _⟩ => ?_
    refine ensures_bind (ensures_expect s₇ (by simp)) fun _ s₈ h₈ => ?_
    exact ensures_succeed (by simp only [Shorter]; omega)
  · exact ensures_fail

theorem ensures_program (n : Nat) :
    ∀ s : TokenStream, 8 * s.length + 8 ≤ n → Ensures (program n) s (NotLonger s) := by
  induction n with
  | zero => intros; omega
  | succ n ih =>
    intro s hs
    unfold program
    refine ensures_bind (ensures_peek s) fun t s₀ ⟨e₀, _⟩ => ?_
    subst e₀
    split
    · exact ensures_succeed (Nat.le_refl _)
    · refine ensures_bind (ensures_function s₀ (by omega)) fun _ s₁ (h₁ : s₁.length < s₀.length) => ?_
      refine ensures_bind (ih s₁ (by omega)) fun _ s₂ (h₂ : s₂.length ≤ s₁.length) => ?_
      exact ensures_succeed (by simp only [NotLonger]; omega)

/-- A bound that the rules do not reach on a stream. -/
def bound (s : TokenStream) : Nat := 8 * s.length + 8

theorem isSome_program (s : TokenStream) : (program (bound s) s).isSome := by
  obtain ⟨r, hr, _⟩ := ensures_program (bound s) s (Nat.le_refl _)
  simp [hr]

end WordMachine.Source.Grammar

namespace WordMachine.Source

/-- The functions of a program's text, or the first error in it. -/
def parse (text : String) : Except ParseError (List Function) :=
  let s := TokenStream.ofText text
  ((Grammar.program (Grammar.bound s) s).get (Grammar.isSome_program s)).map (·.1)

end WordMachine.Source
