import WordMachine.Proofs.Source.Rendering

/-!
# Parsed programs are rendered and parsed again

What is parsed satisfies the conditions on what can be rendered: the names in the trees are those in the
tokens. That what stands after a FOR begins with a name in the rendering too is shown of all operands,
each at the level at which it is derived. In the same way a rendering has the fewest parentheses of all
derivations, but for those of negations.
-/

namespace WordMachine.Source

open Grammar

/-! ### The first token of a rendering -/

section

variable {d : Dialect} {e : Expr} {k : TokenKind} {ks ls : List TokenKind} {bound bound' : Nat}

theorem named_append (h : Named ks) : Named (ks ++ ls) := by
  obtain ⟨x, rest, rfl⟩ := h
  exact ⟨x, rest ++ ls, rfl⟩

theorem named_enclose {needed : Bool} : Named (enclose needed ks) ↔ needed = false ∧ Named ks := by
  cases needed <;> simp [enclose, Named]

theorem named_tokens_of_le (hb : bound ≤ bound') (h : Named (e.tokens bound')) :
    Named (e.tokens bound) := by
  cases e with
  | binary op left right =>
    simp only [Expr.tokens, named_enclose, decide_eq_false_iff_not] at h ⊢
    exact ⟨fun hlt => h.1 (Nat.lt_of_lt_of_le hlt hb), h.2⟩
  | _ => exact h

/-- An operand that is derived with a name in front is rendered with a name in front. -/
def Grammar.Phrase.Leading : Phrase → List TokenKind → Prop
  | expression e, ks => Named ks → Named (e.tokens 0)
  | sum e, ks => Named ks → Named (e.tokens 1)
  | product e, ks => Named ks → Named (e.tokens 2)
  | atom e, ks => Named ks → Named (e.tokens 3)
  | _, _ => True

theorem named_left (h : ∃ k ls, ks = k :: ls ∧ k.beginsOperand = true) (hn : Named (ks ++ ls)) :
    Named ks := by
  obtain ⟨k, rest, rfl, _⟩ := h
  obtain ⟨x, rest', hx⟩ := hn
  cases hx
  exact ⟨x, rest, rfl⟩

theorem Grammar.Derives.leading {p : Phrase} (h : Derives d p ks) : p.Leading ks := by
  induction h with
  | onlySum _ ih => exact fun hn => named_tokens_of_le (Nat.zero_le 1) (ih hn)
  | onlyProduct _ ih => exact fun hn => named_tokens_of_le (Nat.le_succ 1) (ih hn)
  | onlyAtom _ ih => exact fun hn => named_tokens_of_le (Nat.le_succ 2) (ih hn)
  | comparison hop hleft _ ih | additive hop hleft _ ih | multiplicative hop hleft _ ih =>
    intro hn
    have hleft := ih (named_left hleft.begins hn)
    simpa [Expr.tokens, hop, Level.rank, enclose] using named_append hleft
  | name | call => exact fun _ => ⟨_, _, rfl⟩
  | unary | int | parens =>
    intro hn
    obtain ⟨x, rest, hx⟩ := hn
    cases hx
  | _ => trivial

end

/-! ### Parentheses -/

mutual

def Expr.negations : Expr → Nat
  | .int _ => 0
  | .name _ => 0
  | .unary op operand => operand.negations + (op == .negate).toNat
  | .binary _ left right => left.negations + right.negations
  | .call _ arguments => Expr.allNegations arguments

def Expr.allNegations : List Expr → Nat
  | [] => 0
  | e :: es => e.negations + Expr.allNegations es

end

def opened (ks : List TokenKind) : Nat := ks.count .leftParen

section

variable {d : Dialect} {e : Expr} {es : List Expr} {k : TokenKind} {ks ls : List TokenKind}
  {bound bound' : Nat}

@[simp] theorem opened_nil : opened [] = 0 := rfl

@[simp] theorem opened_append : opened (ks ++ ls) = opened ks + opened ls := List.count_append

@[simp] theorem opened_cons : opened (k :: ks) = opened ks + (k == .leftParen).toNat := by
  cases hk : k == TokenKind.leftParen <;> simp [opened, List.count_cons, hk]

@[simp] theorem opened_enclose {needed : Bool} :
    opened (enclose needed ks) = opened ks + needed.toNat := by
  cases needed <;> simp [enclose]

theorem opened_tokens_mono (hb : bound ≤ bound') :
    opened (e.tokens bound) ≤ opened (e.tokens bound') := by
  cases e with
  | binary op left right =>
    simp only [Expr.tokens, opened_enclose]
    by_cases hlt : op.level.rank < bound
    · simp [hlt, Nat.lt_of_lt_of_le hlt hb]
    · simp [hlt]
  | _ => exact Nat.le_refl _

/-- One pair of parentheses lets an expression stand anywhere. -/
theorem opened_tokens_le : opened (e.tokens bound) ≤ opened (e.tokens 0) + 1 := by
  cases e with
  | binary op left right =>
    simp only [Expr.tokens, opened_enclose]
    have hneeded := Bool.toNat_le (decide (op.level.rank < bound))
    omega
  | _ => exact Nat.le_succ _

theorem opened_allTokens_cons :
    opened (Expr.allTokens (e :: es)) = opened (e.tokens 0) + opened (Expr.allTokens es) := by
  cases es with
  | nil => rfl
  | cons e' es => simp [Expr.allTokens]

/-- An operand is rendered with no more parentheses than it is derived with, but for those of its
negations. -/
def Grammar.Phrase.Economical : Phrase → List TokenKind → Prop
  | expression e, ks => opened (e.tokens 0) ≤ opened ks + e.negations
  | sum e, ks => opened (e.tokens 1) ≤ opened ks + e.negations
  | product e, ks => opened (e.tokens 2) ≤ opened ks + e.negations
  | atom e, ks => opened (e.tokens 3) ≤ opened ks + e.negations
  | items es, ks => opened (Expr.allTokens es) ≤ opened ks + Expr.allNegations es
  | arguments es, ks => opened (Expr.allTokens es) ≤ opened ks + Expr.allNegations es
  | _, _ => True

theorem Grammar.Derives.economical {p : Phrase} (h : Derives d p ks) : p.Economical ks := by
  induction h with
  | onlySum _ ih => exact Nat.le_trans (opened_tokens_mono (Nat.zero_le 1)) ih
  | onlyProduct _ ih => exact Nat.le_trans (opened_tokens_mono (Nat.le_succ 1)) ih
  | onlyAtom _ ih => exact Nat.le_trans (opened_tokens_mono (Nat.le_succ 2)) ih
  | comparison hop _ _ ihl ihr | additive hop _ _ ihl ihr | multiplicative hop _ _ ihl ihr =>
    simp only [Phrase.Economical] at ihl ihr
    simp only [Phrase.Economical, Expr.tokens, Expr.negations, opened_enclose, opened_append,
      opened_cons, hop, Level.rank, Nat.lt_irrefl, decide_false, Bool.toNat_false, Nat.max_eq_left, Nat.max_eq_right,
      Nat.zero_le, Nat.le_refl, Nat.reduceLeDiff, Nat.zero_add, Nat.reduceAdd]
    omega
  | unary _ ih =>
    simp only [Phrase.Economical] at ih
    simp only [Phrase.Economical, Expr.tokens, Expr.negations, opened_enclose, opened_cons]
    omega
  | int | name | noArguments => exact Nat.zero_le _
  | @parens e ks _ ih =>
    simp only [Phrase.Economical] at ih
    have hle : opened (e.tokens 3) ≤ opened (e.tokens 0) + 1 := opened_tokens_le
    simp only [Phrase.Economical, opened_cons, opened_append, opened_nil, BEq.rfl, Bool.toNat_true]
    omega
  | call _ ih =>
    simp only [Phrase.Economical] at ih
    simp only [Phrase.Economical, Expr.tokens, Expr.negations, opened_cons, opened_append, opened_nil]
    omega
  | lastItem _ ih => exact ih
  | lastItemComma _ _ ih =>
    simp only [Phrase.Economical] at ih
    simp only [Phrase.Economical, Expr.allTokens, Expr.allNegations, opened_append, opened_cons]
    omega
  | moreItems _ _ ih ihs =>
    simp only [Phrase.Economical] at ih ihs
    simp only [Phrase.Economical, opened_allTokens_cons, Expr.allNegations, opened_append, opened_cons]
    omega
  | someArguments _ ih => exact ih
  | _ => trivial

/-- Only negations have parentheses that the levels of the operators do not require. -/
theorem opened_tokens_le_of_derives (h : Derives d (.expression e) ks) :
    opened (e.tokens 0) ≤ opened ks + e.negations := h.economical

end

/-! ### Names in tokens and in trees -/

def Identified (ks : List TokenKind) : Prop := ∀ x, .name x ∈ ks → isIdentifier x = true

section

variable {k : TokenKind} {ks ls : List TokenKind} {x : String}

theorem identified_append : Identified (ks ++ ls) ↔ Identified ks ∧ Identified ls := by
  simp only [Identified, List.mem_append]
  exact ⟨fun h => ⟨fun x hx => h x (.inl hx), fun x hx => h x (.inr hx)⟩,
    fun h x hx => hx.elim (h.1 x) (h.2 x)⟩

theorem identified_name : Identified (.name x :: ks) ↔ isIdentifier x = true ∧ Identified ks := by
  simp only [Identified, List.mem_cons]
  exact ⟨fun h => ⟨h x (.inl rfl), fun y hy => h y (.inr hy)⟩,
    fun h y hy => hy.elim (fun e => by cases e; exact h.1) (h.2 y)⟩

theorem Identified.tail (h : Identified (k :: ks)) : Identified ks := fun x hx => h x (.tail k hx)

theorem Identified.left (h : Identified (ks ++ ls)) : Identified ks := (identified_append.1 h).1

theorem Identified.right (h : Identified (ks ++ ls)) : Identified ls := (identified_append.1 h).2

theorem identified_of_readable {afterOperand : Bool} (h : readable afterOperand ks = true) :
    Identified ks := by
  induction ks generalizing afterOperand with
  | nil => exact fun x hx => nomatch hx
  | cons k ks ih =>
    rw [readable, Bool.and_eq_true] at h
    intro x hx
    cases hx with
    | head => exact h.1
    | tail _ hx => exact ih h.2 x hx

end

/-- What the trees of a phrase satisfy if the names in its tokens are identifiers. -/
def Grammar.Phrase.Renderable : Phrase → Prop
  | expression e | sum e | product e | atom e => e.Spelled
  | items es | arguments es => ∀ e ∈ es, e.Spelled
  | counter e => e.Spelled ∧ Named (e.tokens 0)
  | range start condition step => start.Spelled ∧ condition.Spelled ∧ step.Spelled
  | statement s => (∀ e ∈ s.expressions, e.Spelled) ∧ ∀ e ∈ s.counters, Named (e.tokens 0)
  | block ss =>
    (∀ e ∈ Stmt.allExpressions ss, e.Spelled) ∧ ∀ e ∈ Stmt.allCounters ss, Named (e.tokens 0)
  | names xs | parameters xs => ∀ x ∈ xs, isIdentifier x = true
  | function f => f.Renderable
  | program fs => ∀ f ∈ fs, f.Renderable

theorem spelled_int {w : Word} : (Expr.int w).Spelled := by
  simp [Expr.Spelled, Expr.variables, Expr.calls]

theorem Grammar.Derives.renderable {p : Phrase} {ks : List TokenKind} (h : Derives .accepted p ks)
    (hks : Identified ks) : p.Renderable := by
  induction h with
  | onlySum _ ih | onlyProduct _ ih | onlyAtom _ ih | someArguments _ ih | someParameters _ ih =>
    exact ih hks
  | comparison _ _ _ ihl ihr | additive _ _ _ ihl ihr | multiplicative _ _ _ ihl ihr =>
    exact spelled_binary.2 ⟨ihl hks.left, ihr hks.right.tail⟩
  | unary _ ih => exact ih hks.tail
  | int => exact spelled_int
  | parens _ ih => exact ih hks.tail.left
  | name => exact spelled_name.2 (identified_name.1 hks).1
  | call _ ih => exact spelled_call.2 ⟨(identified_name.1 hks).1, ih hks.tail.tail.left⟩
  | lastItem _ ih => exact List.forall_mem_singleton.2 (ih hks)
  | lastItemComma _ _ ih => exact List.forall_mem_singleton.2 (ih hks.left)
  | moreItems _ _ ih ihs => exact List.forall_mem_cons.2 ⟨ih hks.left, ihs hks.right.tail⟩
  | noArguments | noParameters | noFunctions => exact List.forall_mem_nil _
  | counter hnamed he ih => exact ⟨ih hks, he.leading (hnamed.resolve_left Bool.false_ne_true)⟩
  | condition _ ih => exact ⟨spelled_int, ih hks, spelled_int⟩
  | startCondition _ _ ihs ih => exact ⟨ihs hks.left, ih hks.right.tail, spelled_int⟩
  | startConditionStep _ _ _ ihs ih ihstep =>
    have hks' := hks.right.tail
    exact ⟨ihs hks.left, ih hks'.left, ihstep hks'.right.tail⟩
  | ifOnly _ _ ih ihbody =>
    have he := ih hks.tail.left
    have hbody := ihbody hks.tail.right.tail.left
    exact ⟨by simpa [Stmt.expressions, Stmt.allExpressions] using ⟨he, hbody.1⟩,
      by simpa [Stmt.counters, Stmt.allCounters] using hbody.2⟩
  | ifElse _ _ _ ih ihbody ihotherwise =>
    have hks' := hks.tail.right.tail
    have he := ih hks.tail.left
    have hbody := ihbody hks'.left
    have hotherwise := ihotherwise hks'.right.tail.left
    exact ⟨List.forall_mem_cons.2 ⟨he, List.forall_mem_append.2 ⟨hbody.1, hotherwise.1⟩⟩,
      List.forall_mem_append.2 ⟨hbody.2, hotherwise.2⟩⟩
  | whileDo _ _ ih ihbody =>
    have he := ih hks.tail.left
    have hbody := ihbody hks.tail.right.tail.left
    exact ⟨List.forall_mem_cons.2 ⟨he, hbody.1⟩, hbody.2⟩
  | forDo _ _ _ ihcounter ihrange ihbody =>
    have hks' := hks.tail.right.tail
    obtain ⟨hcounter, hnamed⟩ := ihcounter hks.tail.left
    obtain ⟨hstart, he, hstep⟩ := ihrange hks'.left
    have hbody := ihbody hks'.right.tail.left
    exact ⟨by simpa [Stmt.expressions] using ⟨hcounter, hstart, he, hstep, hbody.1⟩,
      List.forall_mem_cons.2 ⟨hnamed, hbody.2⟩⟩
  | retNothing | breakLoop | continueLoop | noStatements =>
    exact ⟨List.forall_mem_nil _, List.forall_mem_nil _⟩
  | ret _ ih => exact ⟨List.forall_mem_singleton.2 (ih hks.tail.left), List.forall_mem_nil _⟩
  | assign _ _ ihtarget ih =>
    have htarget := ihtarget hks.left
    have he := ih hks.right.tail.left
    exact ⟨List.forall_mem_cons.2 ⟨htarget, List.forall_mem_singleton.2 he⟩, List.forall_mem_nil _⟩
  | exec _ ih => exact ⟨List.forall_mem_singleton.2 (ih hks.left), List.forall_mem_nil _⟩
  | moreStatements _ _ ih ihs =>
    have hs := ih hks.left
    have hss := ihs hks.right
    exact ⟨List.forall_mem_append.2 ⟨hs.1, hss.1⟩, List.forall_mem_append.2 ⟨hs.2, hss.2⟩⟩
  | lastName | lastNameComma => exact List.forall_mem_singleton.2 (identified_name.1 hks).1
  | moreNames _ ih => exact List.forall_mem_cons.2 ⟨(identified_name.1 hks).1, ih hks.tail.tail⟩
  | function _ _ ih ihbody =>
    obtain ⟨hname, hks'⟩ := identified_name.1 hks.tail
    have hparameters := ih hks'.tail.left
    have hbody := ihbody hks'.tail.right.tail.left
    exact ⟨hname, hparameters, hbody.1, hbody.2⟩
  | moreFunctions _ _ ih ihs => exact List.forall_mem_cons.2 ⟨ih hks.left, ihs hks.right⟩

theorem renderable_of_parse {text : String} {fs : List Function} (h : parse text = .ok fs) :
    ∀ f ∈ fs, f.Renderable := by
  obtain ⟨ks, hks, hd⟩ := derives_of_parse h
  obtain ⟨l, hl⟩ := kinds?_eq_some_iff.1 hks
  exact hd.renderable (identified_of_readable (readable_of_leads hl))

/-- Functions that can be rendered are parsed as they were, and these are all that are ever parsed. -/
theorem parse_render :
    (∀ fs, (∀ f ∈ fs, f.Renderable) → parse (render fs) = .ok fs) ∧
    ∀ text fs, parse text = .ok fs → parse (render fs) = .ok fs := by
  constructor
  · intro fs hfs
    exact parse_render_of_renderable hfs
  · intro text fs hparse
    have hfs := renderable_of_parse hparse
    exact parse_render_of_renderable hfs

/-- A difference has parentheses as a factor, and a negation has them anywhere. -/
theorem parse_render_negation :
    parse "DEF f ( a ) RETURN ( 1 - ( - a ) ) * a ; END ;" = .ok [⟨"f", ["a"], [.ret (some
      (.binary .multiply (.binary .subtract (.int 1) (.unary .negate (.name "a"))) (.name "a")))]⟩] := by
  have hrender : render [⟨"f", ["a"], [.ret (some (.binary .multiply (.binary .subtract (.int 1)
      (.unary .negate (.name "a"))) (.name "a")))]⟩] =
      "DEF f ( a ) RETURN ( 1 - ( - a ) ) * a ; END ;" := by decide +kernel
  rw [← hrender]
  refine parse_render.1 _ (List.forall_mem_singleton.2 ⟨by decide +kernel, ?_, ?_, ?_⟩)
  · exact List.forall_mem_singleton.2 (by decide +kernel)
  · refine List.forall_mem_singleton.2 (spelled_binary.2 ⟨spelled_binary.2 ⟨spelled_int, ?_⟩, ?_⟩)
    · exact spelled_name.2 (by decide +kernel)
    · exact spelled_name.2 (by decide +kernel)
  · exact List.forall_mem_nil _

end WordMachine.Source
