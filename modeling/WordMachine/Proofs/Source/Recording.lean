import WordMachine.Proofs.Compiler.Outcome
import WordMachine.Proofs.Source.Acceptance

/-!
# Recorded names

While the tokens of a function's body are taken, the names of variables are recorded: every name that
no opening parenthesis follows, when it comes up for the first time. The local variables of a function
are those recorded in its body that are not parameters.
-/

namespace WordMachine.Source

def mentioned : List TokenKind → List String
  | [] => []
  | .name x :: ks => if ks.head? = some .leftParen then mentioned ks else x :: mentioned ks
  | _ :: ks => mentioned ks

/-- Records a name unless it is recorded already. -/
def record (seen : List String) (x : String) : List String := if x ∈ seen then seen else seen ++ [x]

def recorded (ks : List TokenKind) : List String := (mentioned ks).foldl record []

/-! ### Recording -/

theorem foldl_record (xs seen : List String) :
    xs.foldl record seen = seen ++ (firsts xs).filter (· ∉ seen) := by
  induction xs generalizing seen with
  | nil => rw [firsts, List.filter_nil, List.append_nil, List.foldl_nil]
  | cons x xs ih =>
    rw [List.foldl_cons, ih, firsts, record]
    by_cases hx : x ∈ seen
    · have hp : ∀ y ∈ firsts xs, (decide (y ∉ seen) && decide (y ≠ x)) = decide (y ∉ seen) := by
        intro y _
        by_cases hy : y ∈ seen
        · simp [hy]
        · have hne : y ≠ x := fun he => hy (he ▸ hx)
          simp [hne]
      rw [if_pos hx, List.filter_cons_of_neg (by simpa using hx), List.filter_filter,
        List.filter_congr hp]
    · have hp : ∀ y ∈ firsts xs,
          (decide (y ∉ seen) && decide (y ≠ x)) = decide (y ∉ seen ++ [x]) := by
        intro y _
        simp [not_or]
      rw [if_neg hx, List.filter_cons_of_pos (by simpa using hx), List.filter_filter,
        List.filter_congr hp, List.append_assoc, List.singleton_append]

theorem recorded_eq_firsts (ks : List TokenKind) : recorded ks = firsts (mentioned ks) := by
  rw [recorded, foldl_record, List.nil_append, List.filter_eq_self]
  simp

/-! ### Names in a row of tokens -/

theorem mentioned_append_cons {k : TokenKind} (hk : k ≠ .leftParen) (ks ls : List TokenKind) :
    mentioned (ks ++ k :: ls) = mentioned ks ++ mentioned (k :: ls) := by
  induction ks with
  | nil => rfl
  | cons a ks ih =>
    cases a with
    | name x =>
      have hhead : (ks ++ k :: ls).head? = some .leftParen ↔ ks.head? = some .leftParen := by
        cases ks with
        | nil => simpa using hk
        | cons b ks => exact Iff.rfl
      rw [List.cons_append, mentioned, mentioned, ih]
      by_cases h : ks.head? = some .leftParen
      · rw [if_pos h, if_pos (hhead.2 h)]
      · rw [if_neg h, if_neg fun hl => h (hhead.1 hl), List.cons_append]
    | _ => exact ih

namespace Grammar

def Phrase.Mentions : Phrase → List TokenKind → Prop
  | expression e, ks | sum e, ks | product e, ks | atom e, ks | counter e, ks =>
    mentioned ks = e.variables
  | items es, ks | arguments es, ks => mentioned ks = Expr.allVariables es
  | range start condition step, ks =>
    mentioned ks = start.variables ++ (condition.variables ++ step.variables)
  | statement s, ks => mentioned ks = Expr.allVariables s.expressions
  | block ss, ks => mentioned ks = Expr.allVariables (Stmt.allExpressions ss)
  | names _, _ | parameters _, _ | function _, _ | program _, _ => True

variable {d : Dialect} {p : Phrase} {ks : List TokenKind} {s : Stmt} {f : Function}
  {fs : List Function}

theorem Derives.getLast?_statement (h : Derives d (.statement s) ks) :
    ks.getLast? = some .semicolon := by
  cases h <;> simp [List.getLast?_cons, List.getLast?_append]

theorem Derives.mentions (h : Derives d p ks) : p.Mentions ks := by
  induction h with
  | onlySum _ ih | onlyProduct _ ih | onlyAtom _ ih | someArguments _ ih | counter _ _ ih
  | unary _ ih => exact ih
  | int | name | noArguments | retNothing | breakLoop | continueLoop | noStatements => rfl
  | comparison _ _ _ ih ih' | additive _ _ _ ih ih' | multiplicative _ _ _ ih ih' =>
    simp only [Phrase.Mentions] at ih ih'
    simp [Phrase.Mentions, mentioned_append_cons, mentioned, Expr.variables, ih, ih']
  | parens _ ih | call _ ih =>
    simp only [Phrase.Mentions] at ih
    simp [Phrase.Mentions, mentioned_append_cons, mentioned, Expr.variables, ih]
  | lastItem _ ih | lastItemComma _ _ ih | condition _ ih | ret _ ih | exec _ ih =>
    simp only [Phrase.Mentions] at ih
    simp [Phrase.Mentions, mentioned_append_cons, mentioned, Expr.variables, Expr.allVariables,
      Stmt.expressions, ih]
  | moreItems _ _ ih ih' | startCondition _ _ ih ih' | ifOnly _ _ ih ih' | whileDo _ _ ih ih'
  | assign _ _ ih ih' =>
    simp only [Phrase.Mentions] at ih ih'
    simp [Phrase.Mentions, mentioned_append_cons, mentioned, Expr.variables, Expr.allVariables,
      Stmt.expressions, Stmt.allExpressions, ih, ih']
  | startConditionStep _ _ _ ih ih' ih'' | ifElse _ _ _ ih ih' ih'' | forDo _ _ _ ih ih' ih'' =>
    simp only [Phrase.Mentions] at ih ih' ih''
    simp [Phrase.Mentions, mentioned_append_cons, mentioned, Expr.allVariables, Stmt.expressions,
      Compiler.allVariables_append, ih, ih', ih'']
  | moreStatements hs _ ih ih' =>
    rcases List.getLast?_eq_some_iff.1 hs.getLast?_statement with ⟨front, rfl⟩
    simp only [Phrase.Mentions] at ih ih'
    simp [Phrase.Mentions, mentioned_append_cons, mentioned, Stmt.allExpressions,
      Compiler.allVariables_append, ← ih, ih']
  | lastName | lastNameComma | moreNames | noParameters | someParameters | function | noFunctions
  | moreFunctions => trivial

/-- The tokens of a function of a program are those of its body between others. -/
theorem Derives.exists_function (h : Derives d (.program fs) ks) (hf : f ∈ fs) :
    ∃ before names body after, ks = before ++ .keyword .DEF :: .name f.name :: .leftParen ::
        (names ++ .rightParen :: (body ++ .keyword .END :: .semicolon :: after)) ∧
      Derives d (.parameters f.parameters) names ∧ Derives d (.block f.body) body := by
  induction fs generalizing ks with
  | nil => cases hf
  | cons g fs ih =>
    cases h with
    | @moreFunctions _ _ _ rest hg hfs =>
      rcases List.mem_cons.1 hf with rfl | hf
      · cases hg with
        | @function _ _ _ names body hps hbody =>
          refine ⟨[], names, body, rest, ?_, hps, hbody⟩
          simp only [List.cons_append, List.append_assoc, List.nil_append]
      · rcases ih hfs hf with ⟨before, names, body, after, rfl, hps, hbody⟩
        exact ⟨_ ++ before, names, body, after, (List.append_assoc ..).symm, hps, hbody⟩

end Grammar

open Grammar

/-- The local variables of a function are what is recorded in its body, without the parameters. -/
theorem locals_eq_recorded {d : Dialect} {f : Function} {body : List TokenKind}
    (h : Derives d (.block f.body) body) :
    f.locals = (recorded body).filter (· ∉ f.parameters) := by
  have hm : mentioned body = Expr.allVariables (Stmt.allExpressions f.body) := h.mentions
  rw [Function.locals, recorded_eq_firsts, hm]

end WordMachine.Source
