import WordMachine.Proofs.Source.Acceptance

/-!
# Rendering

A program is rendered with the fewest parentheses that the levels of its operators require, except that
a negation always has a pair of its own, so that its minus follows no operand. A FOR is rendered with
all its expressions, and an IF without ELSE if nothing stands there.
-/

namespace WordMachine.Source

open Grammar

def enclose (needed : Bool) (ks : List TokenKind) : List TokenKind :=
  if needed then .leftParen :: (ks ++ [.rightParen]) else ks

mutual

/-- The tokens of an expression that stands where an operator of a rank, or a tighter one, can stand. -/
def Expr.tokens (bound : Nat) : Expr → List TokenKind
  | .int value => [.int value]
  | .name text => [.name text]
  | .unary op operand => enclose (op == .negate) (.unary op :: operand.tokens 3)
  | .binary op left right => enclose (op.level.rank < bound)
    (left.tokens (max 1 op.level.rank) ++ .binary op :: right.tokens (op.level.rank + 1))
  | .call callee arguments =>
    .name callee :: .leftParen :: (Expr.allTokens arguments ++ [.rightParen])

def Expr.allTokens : List Expr → List TokenKind
  | [] => []
  | [e] => e.tokens 0
  | e :: es => e.tokens 0 ++ .comma :: Expr.allTokens es

end

mutual

def Stmt.tokens : Stmt → List TokenKind
  | .ifElse condition body [] => .keyword .IF :: (condition.tokens 0 ++ .keyword .THEN ::
    (Stmt.allTokens body ++ [.keyword .END, .semicolon]))
  | .ifElse condition body otherwise => .keyword .IF :: (condition.tokens 0 ++ .keyword .THEN ::
    (Stmt.allTokens body ++ .keyword .ELSE :: (Stmt.allTokens otherwise ++ [.keyword .END, .semicolon])))
  | .whileDo condition body => .keyword .WHILE :: (condition.tokens 0 ++ .keyword .DO ::
    (Stmt.allTokens body ++ [.keyword .END, .semicolon]))
  | .forDo counter start condition step body => .keyword .FOR :: (counter.tokens 0 ++ .assign ::
    ((start.tokens 0 ++ .comma :: (condition.tokens 0 ++ .comma :: step.tokens 0)) ++ .keyword .DO ::
    (Stmt.allTokens body ++ [.keyword .END, .semicolon])))
  | .ret none => [.keyword .RETURN, .semicolon]
  | .ret (some value) => .keyword .RETURN :: (value.tokens 0 ++ [.semicolon])
  | .breakLoop => [.keyword .BREAK, .semicolon]
  | .continueLoop => [.keyword .CONTINUE, .semicolon]
  | .assign target value => target.tokens 0 ++ .assign :: (value.tokens 0 ++ [.semicolon])
  | .exec expression => expression.tokens 0 ++ [.semicolon]

def Stmt.allTokens : List Stmt → List TokenKind
  | [] => []
  | s :: ss => s.tokens ++ Stmt.allTokens ss

end

def nameTokens : List String → List TokenKind
  | [] => []
  | [x] => [.name x]
  | x :: xs => .name x :: .comma :: nameTokens xs

def Function.tokens (f : Function) : List TokenKind :=
  .keyword .DEF :: .name f.name :: .leftParen :: (nameTokens f.parameters ++ .rightParen ::
    (Stmt.allTokens f.body ++ [.keyword .END, .semicolon]))

def render (fs : List Function) : String := write (fs.flatMap Function.tokens)

/-! ### What can be rendered -/

mutual

/-- The expressions after the FORs of a statement. -/
def Stmt.counters : Stmt → List Expr
  | .ifElse _ body otherwise => Stmt.allCounters body ++ Stmt.allCounters otherwise
  | .whileDo _ body => Stmt.allCounters body
  | .forDo counter _ _ _ body => counter :: Stmt.allCounters body
  | .ret _ => []
  | .breakLoop => []
  | .continueLoop => []
  | .assign _ _ => []
  | .exec _ => []

def Stmt.allCounters : List Stmt → List Expr
  | [] => []
  | s :: ss => s.counters ++ Stmt.allCounters ss

end

/-- Variables and functions are called by identifiers. -/
def Expr.Spelled (e : Expr) : Prop :=
  (∀ x ∈ e.variables, isIdentifier x = true) ∧ ∀ g ∈ e.calls, isIdentifier g.name = true

/-- The names in a function are identifiers, and what stands after a FOR begins with one. -/
structure Function.Renderable (f : Function) : Prop where
  name : isIdentifier f.name = true
  parameters : ∀ x ∈ f.parameters, isIdentifier x = true
  expressions : ∀ e ∈ Stmt.allExpressions f.body, e.Spelled
  counters : ∀ e ∈ Stmt.allCounters f.body, Named (e.tokens 0)

/-! ### Renderings are derived -/

/-- An operand of operators that are looser than a rank. -/
def Grammar.Phrase.operand : Nat → Expr → Phrase
  | 0, e => .expression e
  | 1, e => .sum e
  | 2, e => .product e
  | _, e => .atom e

section

variable {d : Dialect} {e : Expr} {ks : List TokenKind}

theorem derives_operand_of_succ {bound : Nat} (h : Derives d (.operand (bound + 1) e) ks) :
    Derives d (.operand bound e) ks := by
  match bound with
  | 0 => exact .onlySum h
  | 1 => exact .onlyProduct h
  | 2 => exact .onlyAtom h
  | _ + 3 => exact h

theorem derives_operand {bound bound' : Nat} (hb : bound ≤ bound')
    (h : Derives d (.operand bound' e) ks) : Derives d (.operand bound e) ks := by
  induction hb with
  | refl => exact h
  | step _ ih => exact ih (derives_operand_of_succ h)

theorem derives_atom {bound : Nat} (h : Derives d (.atom e) ks) : Derives d (.operand bound e) ks := by
  have hle : bound ≤ bound + 3 := Nat.le_add_right bound 3
  exact derives_operand hle h

/-- Parentheses let an expression stand where a tighter operator has its operand. -/
theorem derives_enclose {bound rank : Nat} (h : Derives d (.operand rank e) ks) :
    Derives d (.operand bound e) (enclose (rank < bound) ks) := by
  by_cases hb : rank < bound
  · simp only [enclose, hb, decide_true, if_true]
    exact derives_atom (.parens (derives_operand (Nat.zero_le rank) h))
  · simp only [enclose, hb, decide_false]
    exact derives_operand (Nat.le_of_not_lt hb) h

end

mutual

theorem Expr.derives_tokens (d : Dialect) (e : Expr) (bound : Nat) :
    Derives d (.operand bound e) (e.tokens bound) := by
  match e with
  | .int w => exact derives_atom .int
  | .name x => exact derives_atom .name
  | .unary op operand =>
    have h : Derives d (.atom (.unary op operand)) (.unary op :: operand.tokens 3) :=
      .unary (operand.derives_tokens d 3)
    rw [Expr.tokens, enclose]
    split
    · exact derives_atom (.parens (derives_operand (Nat.zero_le 3) h))
    · exact derives_atom h
  | .binary op left right =>
    rw [Expr.tokens]
    apply derives_enclose
    have hleft := left.derives_tokens d (max 1 op.level.rank)
    have hright := right.derives_tokens d (op.level.rank + 1)
    cases hop : op.level with
    | comparison =>
      rw [hop] at hleft hright
      exact .comparison hop hleft hright
    | additive =>
      rw [hop] at hleft hright
      exact .additive hop hleft hright
    | multiplicative =>
      rw [hop] at hleft hright
      exact .multiplicative hop hleft hright
  | .call callee arguments =>
    refine derives_atom (.call ?_)
    by_cases hnil : arguments = []
    · subst hnil
      exact .noArguments
    · exact .someArguments (Expr.derives_allTokens d arguments hnil)

theorem Expr.derives_allTokens (d : Dialect) (es : List Expr) (h : es ≠ []) :
    Derives d (.items es) (Expr.allTokens es) := by
  match es with
  | [] => exact absurd rfl h
  | [e] => exact .lastItem (e.derives_tokens d 0)
  | e :: e' :: es =>
    have hes := Expr.derives_allTokens d (e' :: es) (List.cons_ne_nil e' es)
    exact .moreItems (e.derives_tokens d 0) hes

end

mutual

theorem Stmt.derives_tokens (d : Dialect) (s : Stmt) (h : ∀ e ∈ s.counters, Named (e.tokens 0)) :
    Derives d (.statement s) s.tokens := by
  match s with
  | .ifElse condition body [] =>
    rw [Stmt.counters, List.forall_mem_append] at h
    exact .ifOnly (condition.derives_tokens d 0) (Stmt.derives_allTokens d body h.1)
  | .ifElse condition body (s :: ss) =>
    rw [Stmt.counters, List.forall_mem_append] at h
    exact .ifElse (condition.derives_tokens d 0) (Stmt.derives_allTokens d body h.1)
      (Stmt.derives_allTokens d (s :: ss) h.2)
  | .whileDo condition body =>
    exact .whileDo (condition.derives_tokens d 0) (Stmt.derives_allTokens d body h)
  | .forDo counter start condition step body =>
    rw [Stmt.counters, List.forall_mem_cons] at h
    have hrange := Derives.startConditionStep (start.derives_tokens d 0) (condition.derives_tokens d 0)
      (step.derives_tokens d 0)
    exact .forDo (.counter (.inr h.1) (counter.derives_tokens d 0)) hrange
      (Stmt.derives_allTokens d body h.2)
  | .ret none => exact .retNothing
  | .ret (some value) => exact .ret (value.derives_tokens d 0)
  | .breakLoop => exact .breakLoop
  | .continueLoop => exact .continueLoop
  | .assign target value => exact .assign (target.derives_tokens d 0) (value.derives_tokens d 0)
  | .exec expression => exact .exec (expression.derives_tokens d 0)

theorem Stmt.derives_allTokens (d : Dialect) (ss : List Stmt)
    (h : ∀ e ∈ Stmt.allCounters ss, Named (e.tokens 0)) : Derives d (.block ss) (Stmt.allTokens ss) := by
  match ss with
  | [] => exact .noStatements
  | s :: ss =>
    rw [Stmt.allCounters, List.forall_mem_append] at h
    exact .moreStatements (s.derives_tokens d h.1) (Stmt.derives_allTokens d ss h.2)

end

theorem derives_nameTokens (d : Dialect) (x : String) (xs : List String) :
    Derives d (.names (x :: xs)) (nameTokens (x :: xs)) := by
  induction xs generalizing x with
  | nil => exact .lastName
  | cons x' xs ih => exact .moreNames (ih x')

theorem Function.derives_tokens (d : Dialect) (f : Function)
    (h : ∀ e ∈ Stmt.allCounters f.body, Named (e.tokens 0)) : Derives d (.function f) f.tokens := by
  obtain ⟨name, parameters, body⟩ := f
  refine .function ?_ (Stmt.derives_allTokens d body h)
  cases parameters with
  | nil => exact .noParameters
  | cons x xs => exact .someParameters (derives_nameTokens d x xs)

theorem derives_flatMap_tokens (d : Dialect) (fs : List Function)
    (h : ∀ f ∈ fs, ∀ e ∈ Stmt.allCounters f.body, Named (e.tokens 0)) :
    Derives d (.program fs) (fs.flatMap Function.tokens) := by
  induction fs with
  | nil => exact .noFunctions
  | cons f fs ih =>
    rw [List.forall_mem_cons] at h
    exact .moreFunctions (f.derives_tokens d h.1) (ih h.2)

/-! ### Renderings are read back -/

section

variable {e left right operand : Expr} {es : List Expr} {op : BinaryOp} {u : UnaryOp} {callee : String}

theorem spelled_name {x : String} : (Expr.name x).Spelled ↔ isIdentifier x = true := by
  simp [Expr.Spelled, Expr.variables, Expr.calls]

theorem spelled_unary : (Expr.unary u operand).Spelled ↔ operand.Spelled := Iff.rfl

theorem spelled_binary : (Expr.binary op left right).Spelled ↔ left.Spelled ∧ right.Spelled := by
  simp only [Expr.Spelled, Expr.variables, Expr.calls, List.forall_mem_append]
  exact and_and_and_comm

theorem forall_mem_allVariables {P : String → Prop} :
    (∀ x ∈ Expr.allVariables es, P x) ↔ ∀ e ∈ es, ∀ x ∈ e.variables, P x := by
  induction es with
  | nil => simp [Expr.allVariables]
  | cons e es ih => rw [Expr.allVariables, List.forall_mem_append, ih, List.forall_mem_cons]

theorem forall_mem_allCalls {P : Signature → Prop} :
    (∀ g ∈ Expr.allCalls es, P g) ↔ ∀ e ∈ es, ∀ g ∈ e.calls, P g := by
  induction es with
  | nil => simp [Expr.allCalls]
  | cons e es ih => rw [Expr.allCalls, List.forall_mem_append, ih, List.forall_mem_cons]

theorem spelled_call :
    (Expr.call callee es).Spelled ↔ isIdentifier callee = true ∧ ∀ e ∈ es, e.Spelled := by
  simp only [Expr.Spelled, Expr.variables, Expr.calls, List.forall_mem_append, List.forall_mem_singleton,
    forall_mem_allVariables, forall_mem_allCalls]
  grind

end

section

variable {b : Bool} {ks ls : List TokenKind}

@[simp] theorem readable_int {w : Word} : readable b (.int w :: ks) = readable true ks := rfl

@[simp] theorem readable_name {x : String} :
    readable b (.name x :: ks) = (isIdentifier x && readable true ks) := rfl

@[simp] theorem readable_keyword {k : Keyword} : readable b (.keyword k :: ks) = readable false ks := rfl

@[simp] theorem readable_unary {op : UnaryOp} :
    readable b (.unary op :: ks) = ((op != .negate || !b) && readable false ks) := rfl

@[simp] theorem readable_binary {op : BinaryOp} :
    readable b (.binary op :: ks) = ((op != .subtract || b) && readable false ks) := rfl

@[simp] theorem readable_semicolon : readable b (.semicolon :: ks) = readable false ks := rfl

@[simp] theorem readable_leftParen : readable b (.leftParen :: ks) = readable false ks := rfl

@[simp] theorem readable_rightParen : readable b (.rightParen :: ks) = readable true ks := rfl

@[simp] theorem readable_comma : readable b (.comma :: ks) = readable false ks := rfl

@[simp] theorem readable_assign : readable b (.assign :: ks) = readable false ks := rfl

/-- A rendered expression can stand after anything, and it ends an operand. -/
def EndsOperand (ks : List TokenKind) : Prop := ∀ b ls, readable b (ks ++ ls) = readable true ls

theorem endsOperand_enclose {needed : Bool} (h : EndsOperand ks) : EndsOperand (enclose needed ks) := by
  intro b ls
  cases needed with
  | false => exact h b ls
  | true => simp [enclose, h _]

mutual

theorem Expr.endsOperand_tokens (e : Expr) (h : e.Spelled) (bound : Nat) :
    EndsOperand (e.tokens bound) := by
  match e with
  | .int w =>
    intro b ls
    rfl
  | .name x =>
    intro b ls
    simp [Expr.tokens, spelled_name.1 h]
  | .unary op operand =>
    have ih := operand.endsOperand_tokens (spelled_unary.1 h) 3
    by_cases hop : op = .negate
    · intro b ls
      -- the minus comes after a parenthesis
      simp [Expr.tokens, hop, enclose, ih _]
    · intro b ls
      simp [Expr.tokens, hop, enclose, ih _]
  | .binary op left right =>
    obtain ⟨hl, hr⟩ := spelled_binary.1 h
    have ihl := left.endsOperand_tokens hl (max 1 op.level.rank)
    have ihr := right.endsOperand_tokens hr (op.level.rank + 1)
    apply endsOperand_enclose
    intro b ls
    rw [List.append_assoc, ihl]
    simp [ihr _]
  | .call callee arguments =>
    obtain ⟨hcallee, harguments⟩ := spelled_call.1 h
    intro b ls
    by_cases hnil : arguments = []
    · subst hnil
      simp [Expr.tokens, Expr.allTokens, hcallee]
    · have ih := Expr.endsOperand_allTokens arguments harguments hnil
      simp [Expr.tokens, hcallee, ih _]

theorem Expr.endsOperand_allTokens (es : List Expr) (h : ∀ e ∈ es, e.Spelled) (hes : es ≠ []) :
    EndsOperand (Expr.allTokens es) := by
  match es with
  | [] => exact absurd rfl hes
  | [e] => exact e.endsOperand_tokens (h e (by simp)) 0
  | e :: e' :: es =>
    rw [List.forall_mem_cons] at h
    have ih := Expr.endsOperand_allTokens (e' :: es) h.2 (List.cons_ne_nil e' es)
    intro b ls
    show readable b ((e.tokens 0 ++ .comma :: Expr.allTokens (e' :: es)) ++ ls) = _
    rw [List.append_assoc, e.endsOperand_tokens h.1 0]
    simp [ih _]

end

def EndsBlock (ks : List TokenKind) : Prop :=
  ∀ b k ls, readable b (ks ++ .keyword k :: ls) = readable false ls

mutual

theorem Stmt.readable_tokens (s : Stmt) (h : ∀ e ∈ s.expressions, e.Spelled) (b : Bool)
    (ls : List TokenKind) : readable b (s.tokens ++ ls) = readable false ls := by
  match s with
  | .ifElse condition body [] =>
    simp only [Stmt.expressions, List.forall_mem_cons, List.forall_mem_append] at h
    have hcondition := condition.endsOperand_tokens h.1 0
    have hbody := Stmt.endsBlock_allTokens body h.2.1
    simp [Stmt.tokens, hcondition _, hbody _]
  | .ifElse condition body (s :: ss) =>
    simp only [Stmt.expressions, List.forall_mem_cons, List.forall_mem_append] at h
    have hcondition := condition.endsOperand_tokens h.1 0
    have hbody := Stmt.endsBlock_allTokens body h.2.1
    have hotherwise := Stmt.endsBlock_allTokens (s :: ss) h.2.2
    simp [Stmt.tokens, hcondition _, hbody _,
      hotherwise _]
  | .whileDo condition body =>
    simp only [Stmt.expressions, List.forall_mem_cons] at h
    have hcondition := condition.endsOperand_tokens h.1 0
    have hbody := Stmt.endsBlock_allTokens body h.2
    simp [Stmt.tokens, hcondition _, hbody _]
  | .forDo counter start condition step body =>
    simp only [Stmt.expressions, List.forall_mem_cons] at h
    obtain ⟨hcounter, hstart, hcondition, hstep, hbody⟩ := h
    have hcounter := counter.endsOperand_tokens hcounter 0
    have hstart := start.endsOperand_tokens hstart 0
    have hcondition := condition.endsOperand_tokens hcondition 0
    have hstep := step.endsOperand_tokens hstep 0
    have hbody := Stmt.endsBlock_allTokens body hbody
    simp [Stmt.tokens, hcounter _, hstart _,
      hcondition _, hstep _, hbody _]
  | .ret none => rfl
  | .ret (some value) =>
    have hvalue := value.endsOperand_tokens (h value (by simp [Stmt.expressions])) 0
    simp [Stmt.tokens, hvalue _]
  | .breakLoop => rfl
  | .continueLoop => rfl
  | .assign target value =>
    have htarget := target.endsOperand_tokens (h target (by simp [Stmt.expressions])) 0
    have hvalue := value.endsOperand_tokens (h value (by simp [Stmt.expressions])) 0
    simp [Stmt.tokens, htarget _, hvalue _]
  | .exec expression =>
    have hexpression := expression.endsOperand_tokens (h expression (by simp [Stmt.expressions])) 0
    simp [Stmt.tokens, hexpression _]

theorem Stmt.endsBlock_allTokens (ss : List Stmt) (h : ∀ e ∈ Stmt.allExpressions ss, e.Spelled) :
    EndsBlock (Stmt.allTokens ss) := by
  intro b k ls
  match ss with
  | [] => rfl
  | s :: ss =>
    rw [Stmt.allExpressions, List.forall_mem_append] at h
    rw [Stmt.allTokens, List.append_assoc, s.readable_tokens h.1]
    exact Stmt.endsBlock_allTokens ss h.2 false k ls

end

theorem readable_nameTokens {xs : List String} (h : ∀ x ∈ xs, isIdentifier x = true) :
    readable b (nameTokens xs ++ .rightParen :: ls) = readable true ls := by
  induction xs generalizing b with
  | nil => rfl
  | cons x xs ih =>
    rw [List.forall_mem_cons] at h
    have ih := ih (b := false) h.2
    cases xs with
    | nil => simp [nameTokens, h.1]
    | cons x' xs =>
      show readable b (.name x :: .comma :: (nameTokens (x' :: xs) ++ .rightParen :: ls)) = _
      simp [h.1, ih]

theorem Function.readable_tokens {f : Function} (h : f.Renderable) :
    readable false (f.tokens ++ ls) = readable false ls := by
  have hbody := Stmt.endsBlock_allTokens f.body h.expressions
  simp [Function.tokens, h.name,
    readable_nameTokens h.parameters, hbody _]

theorem readable_flatMap_tokens {fs : List Function} (h : ∀ f ∈ fs, f.Renderable) :
    readable false (fs.flatMap Function.tokens) = true := by
  induction fs with
  | nil => rfl
  | cons f fs ih =>
    rw [List.forall_mem_cons] at h
    rw [List.flatMap_cons, Function.readable_tokens h.1]
    exact ih h.2

end

theorem parse_render_of_renderable {fs : List Function} (h : ∀ f ∈ fs, f.Renderable) :
    parse (render fs) = .ok fs :=
  parse_of_derives (kinds?_write (readable_flatMap_tokens h))
    (derives_flatMap_tokens .accepted fs fun f hf => (h f hf).counters)

end WordMachine.Source
