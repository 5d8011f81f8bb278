import WordMachine.Proofs.Source.Names

/-!
# Size of functions

Every parameter of a function and every variable in its body is a token of the text, so a function has
no more of them than the text has characters.
-/

namespace WordMachine.Source

/-! ### Sizes -/

/-- How many variables there are in an expression. -/
def Expr.size (e : Expr) : Nat := e.variables.length

def Expr.allSize (es : List Expr) : Nat := (Expr.allVariables es).length

/-- How many parameters a function has, and variables in its body. -/
def Function.size (f : Function) : Nat :=
  f.parameters.length + Expr.allSize (Stmt.allExpressions f.body)

def Function.allSize : List Function → Nat
  | [] => 0
  | f :: fs => f.size + allSize fs

theorem Expr.allSize_cons (e : Expr) (es : List Expr) :
    Expr.allSize (e :: es) = e.size + Expr.allSize es :=
  List.length_append

theorem Expr.allSize_append (es fs : List Expr) :
    Expr.allSize (es ++ fs) = Expr.allSize es + Expr.allSize fs := by
  induction es with
  | nil => exact (Nat.zero_add _).symm
  | cons e es ih => rw [List.cons_append, allSize_cons, allSize_cons, ih, Nat.add_assoc]

theorem length_firsts_le {α : Type} [DecidableEq α] (as : List α) :
    (firsts as).length ≤ as.length := by
  induction as with
  | nil => exact Nat.le_refl _
  | cons a as ih => exact Nat.succ_le_succ (Nat.le_trans (List.length_filter_le ..) ih)

theorem Function.length_locals_le (f : Function) :
    f.parameters.length + f.locals.length ≤ f.size :=
  Nat.add_le_add_left (Nat.le_trans (List.length_filter_le ..) (length_firsts_le _)) _

/-! ### Tokens of a text -/

theorem length_stream_le (l : Lexer) : l.stream.length ≤ l.cursor.rest.length := by
  fun_induction Lexer.stream l with
  | case1 | case2 => exact Nat.zero_le _
  | case3 l t after h ht hlt ih => exact Nat.lt_of_le_of_lt ih hlt

/-! ### Rules -/

namespace Rule

variable {α β : Type} {p : Rule α} {f : α → Rule β} {s : TokenStream} {k k' : Nat} {v : α → Nat}
  {w : β → Nat}

/-- A parser takes enough tokens to pay for the size of its value, what is in hand included. -/
def Pays (p : Rule α) (s : TokenStream) (hand : Nat) (size : α → Nat) : Prop :=
  ∀ a t, p s = some (.ok (a, t)) → t.length + size a ≤ s.length + hand

theorem Pays.mono (h : Pays p s k v) (hk : k ≤ k') : Pays p s k' v :=
  fun a t he => Nat.le_trans (h a t he) (Nat.add_le_add_left hk _)

theorem pays_pure {a : α} (h : v a ≤ k) : Pays (pure a) s k v := by
  intro b t he
  cases he
  exact Nat.add_le_add_left h _

theorem pays_bind (hp : Pays p s k v) (hf : ∀ a t, Pays (f a) t (v a) w) : Pays (p >>= f) s k w := by
  intro b t he
  have hb : (p >>= f) s = andThen p f s := rfl
  rw [hb, andThen] at he
  split at he
  · next a u hu => exact Nat.le_trans (hf a u b t he) (hp a u hu)
  · cases he
  · cases he

theorem pays_fail {mistake : Mistake} {location : Location} : Pays (fail mistake location) s k v := by
  intro a t he
  cases he

theorem pays_exhausted : Pays (exhausted : Rule α) s k v := by
  intro a t he
  cases he

theorem pays_peek {f : Token → Rule β}
    (hf : ∀ t, (t.kind ≠ .endOfText → 0 < s.length) → Pays (f t) s k w) : Pays (peek >>= f) s k w := by
  intro b t he
  cases s with
  | endOfText location => exact hf _ (fun h => absurd rfl h) b t he
  | failed e => cases he
  | token u rest => exact hf u (fun _ => Nat.succ_pos _) b t he

theorem pays_next : Pays next s k fun t => if t.kind = .endOfText then k else k + 1 := by
  intro a t he
  cases s with
  | endOfText location =>
    cases he
    exact Nat.le_refl _
  | failed e => cases he
  | token u rest =>
    cases he
    dsimp only [TokenStream.length]
    split <;> omega

theorem pays_next_of_pos (h : 0 < s.length) : Pays next s k fun _ => k + 1 := by
  intro a t he
  cases s with
  | endOfText location => cases h
  | failed e => cases he
  | token u rest =>
    cases he
    dsimp only [TokenStream.length]
    omega

theorem pays_skip : Pays next s k fun _ => k := by
  intro a t he
  have hp := pays_next (k := k) a t he
  dsimp only at hp ⊢
  split at hp <;> omega

theorem pays_expect {kind : TokenKind} {what : String} : Pays (expect kind what) s k fun _ => k := by
  refine pays_bind pays_skip fun t u => ?_
  split
  · exact pays_pure (Nat.le_refl _)
  · exact pays_fail

end Rule

namespace Grammar

open Rule

structure ExpressionPays (n : Nat) : Prop where
  expression : ∀ s k, Pays (expression n) s k fun e => k + e.size
  sum : ∀ s k, Pays (sum n) s k fun e => k + e.size
  sumFrom : ∀ s k left, Pays (sumFrom n left) s (k + left.size) fun e => k + e.size
  product : ∀ s k, Pays (product n) s k fun e => k + e.size
  productFrom : ∀ s k left, Pays (productFrom n left) s (k + left.size) fun e => k + e.size
  atom : ∀ s k, Pays (atom n) s k fun e => k + e.size
  named : ∀ s k text, Pays (named n text) s (k + 1) fun e => k + e.size
  arguments : ∀ s k, Pays (arguments n) s k fun es => k + Expr.allSize es

theorem size_binary (op : BinaryOp) (left right : Expr) :
    (Expr.binary op left right).size = left.size + right.size :=
  List.length_append

namespace ExpressionPays

variable {n : Nat} {s : TokenStream} {k : Nat}

theorem done {e : Expr} : Pays (pure e) s (k + e.size) fun e => k + e.size :=
  pays_pure (Nat.le_refl _)

theorem joined {op : BinaryOp} {left right : Expr} :
    Pays (pure (Expr.binary op left right)) s (k + left.size + right.size) fun e => k + e.size :=
  pays_pure (Nat.le_of_eq (by rw [size_binary, Nat.add_assoc]))

/-- The operands that were read pay for those of the operation. -/
theorem fold {rest : Expr → Rule Expr} {op : BinaryOp} {left right : Expr}
    (h : ∀ e, Pays (rest e) s (k + e.size) fun e => k + e.size) :
    Pays (rest (.binary op left right)) s (k + left.size + right.size) fun e => k + e.size :=
  (h _).mono (Nat.le_of_eq (by rw [size_binary, Nat.add_assoc]))

theorem expression_succ (h : ExpressionPays n) :
    Pays (Grammar.expression (n + 1)) s k fun e => k + e.size := by
  unfold Grammar.expression
  refine pays_bind (h.sum s k) fun left s₁ => pays_peek fun t _ => ?_
  split
  · split
    · exact pays_bind pays_skip fun _ s₂ => pays_bind (h.sum s₂ _) fun right s₃ => joined
    · exact done
  · exact done

theorem sum_succ (h : ExpressionPays n) : Pays (Grammar.sum (n + 1)) s k fun e => k + e.size := by
  unfold Grammar.sum
  exact pays_bind (h.product s k) fun first s₁ => h.sumFrom s₁ k first

theorem sumFrom_succ (h : ExpressionPays n) (left : Expr) :
    Pays (Grammar.sumFrom (n + 1) left) s (k + left.size) fun e => k + e.size := by
  unfold Grammar.sumFrom
  refine pays_peek fun t _ => ?_
  split
  · split
    · exact pays_bind pays_skip fun _ s₁ => pays_bind (h.product s₁ _) fun right s₂ =>
        fold fun e => h.sumFrom s₂ k e
    · exact done
  · exact done

theorem product_succ (h : ExpressionPays n) :
    Pays (Grammar.product (n + 1)) s k fun e => k + e.size := by
  unfold Grammar.product
  exact pays_bind (h.atom s k) fun first s₁ => h.productFrom s₁ k first

theorem productFrom_succ (h : ExpressionPays n) (left : Expr) :
    Pays (Grammar.productFrom (n + 1) left) s (k + left.size) fun e => k + e.size := by
  unfold Grammar.productFrom
  refine pays_peek fun t _ => ?_
  split
  · split
    · exact pays_bind pays_skip fun _ s₁ => pays_bind (h.atom s₁ _) fun right s₂ =>
        fold fun e => h.productFrom s₂ k e
    · exact done
  · exact done

theorem atom_succ (h : ExpressionPays n) : Pays (Grammar.atom (n + 1)) s k fun e => k + e.size := by
  unfold Grammar.atom
  refine pays_bind pays_next fun t s₁ => ?_
  have hk : k ≤ if t.kind = .endOfText then k else k + 1 := by split <;> omega
  split
  · refine (pays_bind (h.atom s₁ k) fun inner s₂ => pays_pure ?_).mono hk
    exact Nat.le_refl _
  · exact (pays_pure (Nat.le_refl _)).mono hk
  · exact (pays_bind (h.expression s₁ k) fun e s₂ => pays_bind pays_expect fun _ s₃ =>
      done).mono hk
  · next text hname =>
    -- only the token of a name is spent on a variable
    rw [hname, if_neg (by simp)]
    exact h.named s₁ k text
  all_goals exact pays_fail

theorem named_succ (h : ExpressionPays n) (text : String) :
    Pays (Grammar.named (n + 1) text) s (k + 1) fun e => k + e.size := by
  unfold Grammar.named
  refine pays_peek fun t _ => ?_
  split
  · refine (pays_bind pays_skip fun _ s₁ => pays_bind (h.arguments s₁ k) fun es s₂ =>
      pays_pure ?_).mono (Nat.le_succ k)
    exact Nat.le_refl _
  · exact done

theorem arguments_succ (h : ExpressionPays n) :
    Pays (Grammar.arguments (n + 1)) s k fun es => k + Expr.allSize es := by
  have hcons : ∀ {s : TokenStream} {e : Expr}, Pays (do
      let es ← Grammar.arguments n
      return e :: es) s (k + e.size) fun es => k + Expr.allSize es := by
    intro s e
    refine pays_bind (h.arguments s _) fun es s₁ => pays_pure ?_
    exact Nat.le_of_eq (by rw [Expr.allSize_cons, Nat.add_assoc])
  unfold Grammar.arguments
  refine pays_peek fun t _ => ?_
  split
  · exact pays_bind pays_skip fun _ s₁ => pays_pure (Nat.le_refl _)
  · refine pays_bind (h.expression s k) fun e s₁ => pays_peek fun u _ => ?_
    split
    · exact pays_bind pays_skip fun _ s₂ => hcons
    · exact hcons
    · exact pays_fail

end ExpressionPays

theorem expressionPays (n : Nat) : ExpressionPays n := by
  induction n with
  | zero =>
    exact ⟨fun _ _ => pays_exhausted, fun _ _ => pays_exhausted, fun _ _ _ => pays_exhausted,
      fun _ _ => pays_exhausted, fun _ _ _ => pays_exhausted, fun _ _ => pays_exhausted,
      fun _ _ _ => pays_exhausted, fun _ _ => pays_exhausted⟩
  | succ n ih =>
    exact ⟨fun _ _ => ih.expression_succ, fun _ _ => ih.sum_succ, fun _ _ => ih.sumFrom_succ,
      fun _ _ => ih.product_succ, fun _ _ => ih.productFrom_succ, fun _ _ => ih.atom_succ,
      fun _ _ => ih.named_succ, fun _ _ => ih.arguments_succ⟩

theorem pays_loopEnd (s : TokenStream) (k : Nat) : Pays loopEnd s k fun _ => k :=
  pays_bind pays_expect fun _ _ => pays_expect

theorem pays_range (n : Nat) (s : TokenStream) (k : Nat) (first : Expr) :
    Pays (range n first) s (k + first.size)
      fun r => k + (r.1.size + r.2.1.size + r.2.2.size) := by
  have hexpr := (expressionPays n).expression
  have hint : ∀ w, (Expr.int w).size = 0 := fun _ => rfl
  unfold range
  refine pays_peek fun t _ => ?_
  split
  · refine pays_bind pays_skip fun _ s₁ => pays_bind (hexpr s₁ _) fun condition s₂ =>
      pays_peek fun u _ => ?_
    split
    · exact pays_bind pays_skip fun _ s₃ => pays_bind (hexpr s₃ _) fun step s₄ =>
        pays_pure (by dsimp only; omega)
    · exact pays_pure (by dsimp only; rw [hint]; omega)
  · exact pays_pure (by dsimp only; rw [hint, hint]; omega)

structure StatementPays (n : Nat) : Prop where
  statement : ∀ s k, Pays (statement n) s k fun st => k + Expr.allSize st.expressions
  block : ∀ s k ends, Pays (block n ends) s k fun ss => k + Expr.allSize (Stmt.allExpressions ss)

namespace StatementPays

variable {n : Nat} {s : TokenStream} {k : Nat}

theorem statement_succ (h : StatementPays n) :
    Pays (Grammar.statement (n + 1)) s k fun st => k + Expr.allSize st.expressions := by
  have hexpr := (expressionPays n).expression
  have hnil : Expr.allSize [] = 0 := rfl
  unfold Grammar.statement
  refine pays_peek fun t _ => ?_
  split
  · -- WHILE
    refine pays_bind pays_skip fun _ s₁ => pays_bind (hexpr s₁ _) fun condition s₂ =>
      pays_bind pays_expect fun _ s₃ => pays_bind (h.block s₃ _ _) fun body s₄ =>
      pays_bind (pays_loopEnd s₄ _) fun _ s₅ => pays_pure ?_
    rw [Stmt.expressions, Expr.allSize_cons]
    omega
  · -- FOR
    refine pays_bind pays_skip fun _ s₁ => pays_peek fun u _ => ?_
    split
    · refine pays_bind (hexpr s₁ _) fun counter s₂ => pays_bind pays_expect fun _ s₃ =>
        pays_bind (hexpr s₃ _) fun first s₄ => pays_bind (pays_range n s₄ _ first) fun r s₅ => ?_
      obtain ⟨start, condition, step⟩ := r
      refine pays_bind pays_expect fun _ s₆ => pays_bind (h.block s₆ _ _) fun body s₇ =>
        pays_bind (pays_loopEnd s₇ _) fun _ s₈ => pays_pure ?_
      simp only [Stmt.expressions, Expr.allSize_cons]
      omega
    · exact pays_fail
  · -- IF
    refine pays_bind pays_skip fun _ s₁ => pays_bind (hexpr s₁ _) fun condition s₂ =>
      pays_bind pays_expect fun _ s₃ => pays_bind (h.block s₃ _ _) fun body s₄ =>
      pays_bind pays_skip fun u s₅ => ?_
    split
    · refine pays_bind (h.block s₅ _ _) fun otherwise s₆ => pays_bind pays_skip fun _ s₇ =>
        pays_bind pays_expect fun _ s₈ => pays_pure ?_
      rw [Stmt.expressions, Expr.allSize_cons, Expr.allSize_append]
      omega
    · refine pays_bind pays_expect fun _ s₆ => pays_pure ?_
      rw [Stmt.expressions, Expr.allSize_cons, Expr.allSize_append, Stmt.allExpressions, hnil]
      omega
  · -- RETURN
    refine pays_bind pays_skip fun _ s₁ => pays_peek fun u _ => ?_
    split
    · exact pays_bind pays_expect fun _ s₂ => pays_pure (Nat.le_refl _)
    · refine pays_bind (hexpr s₁ _) fun value s₂ => pays_bind pays_expect fun _ s₃ => pays_pure ?_
      rw [Stmt.expressions, Option.toList_some, Expr.allSize_cons, hnil]
      omega
  · exact pays_bind pays_skip fun _ s₁ => pays_bind pays_expect fun _ s₂ => pays_pure (Nat.le_refl _)
  · exact pays_bind pays_skip fun _ s₁ => pays_bind pays_expect fun _ s₂ => pays_pure (Nat.le_refl _)
  · -- an assignment, or an expression alone
    refine pays_bind (hexpr s _) fun e s₁ => pays_peek fun u _ => ?_
    split
    · refine pays_bind pays_skip fun _ s₂ => pays_bind (hexpr s₂ _) fun value s₃ =>
        pays_bind pays_expect fun _ s₄ => pays_pure ?_
      simp only [Stmt.expressions, Expr.allSize_cons, hnil]
      omega
    · refine pays_bind pays_expect fun _ s₂ => pays_pure ?_
      rw [Stmt.expressions, Expr.allSize_cons, hnil]
      omega

theorem block_succ (h : StatementPays n) (ends : List Keyword) :
    Pays (Grammar.block (n + 1) ends) s k fun ss => k + Expr.allSize (Stmt.allExpressions ss) := by
  have hrest : Pays (do
      let st ← Grammar.statement n
      let ss ← Grammar.block n ends
      return st :: ss) s k fun ss => k + Expr.allSize (Stmt.allExpressions ss) := by
    refine pays_bind (h.statement s k) fun st s₁ => pays_bind (h.block s₁ _ ends)
      fun ss s₂ => pays_pure ?_
    rw [Stmt.allExpressions, Expr.allSize_append]
    omega
  unfold Grammar.block
  refine pays_peek fun t _ => ?_
  split
  · exact pays_fail
  · split
    · exact pays_pure (Nat.le_refl _)
    · exact hrest
  · exact hrest

end StatementPays

theorem statementPays (n : Nat) : StatementPays n := by
  induction n with
  | zero => exact ⟨fun _ _ => pays_exhausted, fun _ _ _ => pays_exhausted⟩
  | succ n ih => exact ⟨fun _ _ => ih.statement_succ, fun _ _ => ih.block_succ⟩

theorem pays_parameters (n : Nat) (s : TokenStream) (k : Nat) :
    Pays (parameters n) s k fun ps => k + ps.length := by
  induction n generalizing s k with
  | zero => exact pays_exhausted
  | succ n ih =>
    unfold parameters
    refine pays_peek fun t hpos => ?_
    split
    · next text hname =>
      -- the name that was looked at is the token that is taken
      refine pays_bind (pays_next_of_pos (hpos (by simp [hname]))) fun _ s₁ =>
        pays_peek fun u _ => ?_
      split
      · refine pays_bind pays_skip fun _ s₂ => pays_bind (ih s₂ _) fun names s₃ => pays_pure ?_
        rw [List.length_cons]
        omega
      · exact pays_pure (Nat.le_refl _)
    · exact pays_pure (Nat.le_refl _)

theorem pays_function (n : Nat) (s : TokenStream) (k : Nat) :
    Pays (function n) s k fun f => k + f.size := by
  unfold function
  refine pays_bind pays_expect fun _ s₁ => pays_bind pays_skip fun t s₂ => ?_
  split
  · refine pays_bind pays_expect fun _ s₃ => pays_bind (pays_parameters n s₃ _) fun ps s₄ =>
      pays_bind pays_expect fun _ s₅ => pays_bind ((statementPays n).block s₅ _ _) fun body s₆ =>
      pays_bind pays_skip fun _ s₇ => pays_bind pays_expect fun _ s₈ => pays_pure ?_
    exact Nat.le_of_eq (by rw [Function.size, Nat.add_assoc])
  · exact pays_fail

theorem pays_program (n : Nat) (s : TokenStream) (k : Nat) :
    Pays (program n) s k fun fs => k + Function.allSize fs := by
  induction n generalizing s k with
  | zero => exact pays_exhausted
  | succ n ih =>
    unfold program
    refine pays_peek fun t _ => ?_
    split
    · exact pays_pure (Nat.le_refl _)
    · refine pays_bind (pays_function n s k) fun f s₁ => pays_bind (ih s₁ _) fun fs s₂ =>
        pays_pure ?_
      exact Nat.le_of_eq (by rw [Function.allSize, Nat.add_assoc])

end Grammar

theorem Function.size_le_allSize {f : Function} {fs : List Function} (h : f ∈ fs) :
    f.size ≤ allSize fs := by
  induction h with
  | head => exact Nat.le_add_right _ _
  | tail _ _ ih => exact Nat.le_trans ih (Nat.le_add_left _ _)

/-- A function has at most as many parameters and local variables as the text has characters. -/
theorem length_variables_le_of_parse {text : String} {fs : List Function} (h : parse text = .ok fs) :
    ∀ f ∈ fs, f.parameters.length + f.locals.length ≤ text.length := by
  intro f hf
  obtain ⟨t, hs⟩ := program_of_parse h
  have hsum := Grammar.pays_program _ _ 0 _ _ hs
  dsimp only at hsum
  have hstream := length_stream_le (Lexer.ofText text)
  have hsize := Function.size_le_allSize hf
  have hlocals := f.length_locals_le
  have htext : (Lexer.ofText text).cursor.rest.length = text.length := String.length_toList
  have hof : (TokenStream.ofText text).length = (Lexer.ofText text).stream.length := rfl
  omega

end WordMachine.Source
