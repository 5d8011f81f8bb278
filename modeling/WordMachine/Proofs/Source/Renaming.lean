import Mathlib.Data.Set.Function
import WordMachine.Proofs.Source.Recording
import WordMachine.Proofs.Source.Respelling

/-!
# Renaming variables

A variable is a name that no opening parenthesis follows. With its variables renamed, a function keeps
its shape, its calls and the names of the functions it calls, and what is derived from it are the same
tokens with other names in the place of its variables. Where different variables get different names,
the local variables are the renamed ones in the same order.
-/

namespace WordMachine.Source

/-! ### Trees -/

section

variable (r : String → String)

mutual

def Expr.rename : Expr → Expr
  | .int value => .int value
  | .name text => .name (r text)
  | .unary op operand => .unary op operand.rename
  | .binary op left right => .binary op left.rename right.rename
  | .call callee arguments => .call callee (Expr.renameAll arguments)

def Expr.renameAll : List Expr → List Expr
  | [] => []
  | e :: es => e.rename :: Expr.renameAll es

end

mutual

def Stmt.rename : Stmt → Stmt
  | .ifElse condition body otherwise =>
    .ifElse (condition.rename r) (Stmt.renameAll body) (Stmt.renameAll otherwise)
  | .whileDo condition body => .whileDo (condition.rename r) (Stmt.renameAll body)
  | .forDo counter start condition step body =>
    .forDo (counter.rename r) (start.rename r) (condition.rename r) (step.rename r)
      (Stmt.renameAll body)
  | .ret value => .ret (value.map (Expr.rename r))
  | .breakLoop => .breakLoop
  | .continueLoop => .continueLoop
  | .assign target value => .assign (target.rename r) (value.rename r)
  | .exec expression => .exec (expression.rename r)

def Stmt.renameAll : List Stmt → List Stmt
  | [] => []
  | s :: ss => s.rename :: Stmt.renameAll ss

end

/-- A function with its parameters and local variables renamed. -/
def Function.rename (f : Function) : Function :=
  ⟨f.name, f.parameters.map r, Stmt.renameAll r f.body⟩

theorem length_renameAll (es : List Expr) : (Expr.renameAll r es).length = es.length := by
  induction es with
  | nil => rfl
  | cons e es ih => rw [Expr.renameAll, List.length_cons, List.length_cons, ih]

theorem renameAll_append (es es' : List Expr) :
    Expr.renameAll r (es ++ es') = Expr.renameAll r es ++ Expr.renameAll r es' := by
  induction es with
  | nil => rfl
  | cons e es ih => rw [List.cons_append, Expr.renameAll, Expr.renameAll, ih, List.cons_append]

mutual

theorem variables_rename (e : Expr) : (e.rename r).variables = e.variables.map r := by
  match e with
  | .int _ | .name _ => rfl
  | .unary _ operand => exact variables_rename operand
  | .binary _ left right =>
    simp only [Expr.rename, Expr.variables, List.map_append, variables_rename left,
      variables_rename right]
  | .call _ arguments => exact allVariables_rename arguments

theorem allVariables_rename (es : List Expr) :
    Expr.allVariables (Expr.renameAll r es) = (Expr.allVariables es).map r := by
  match es with
  | [] => rfl
  | e :: es =>
    simp only [Expr.renameAll, Expr.allVariables, List.map_append, variables_rename e,
      allVariables_rename es]

end

mutual

theorem calls_rename (e : Expr) : (e.rename r).calls = e.calls := by
  match e with
  | .int _ | .name _ => rfl
  | .unary _ operand => exact calls_rename operand
  | .binary _ left right => simp only [Expr.rename, Expr.calls, calls_rename left, calls_rename right]
  | .call _ arguments =>
    simp only [Expr.rename, Expr.calls, allCalls_rename arguments, length_renameAll]

theorem allCalls_rename (es : List Expr) : Expr.allCalls (Expr.renameAll r es) = Expr.allCalls es := by
  match es with
  | [] => rfl
  | e :: es => simp only [Expr.renameAll, Expr.allCalls, calls_rename e, allCalls_rename es]

end

mutual

theorem expressions_rename (s : Stmt) :
    (s.rename r).expressions = Expr.renameAll r s.expressions := by
  match s with
  | .ifElse _ body otherwise =>
    simp only [Stmt.rename, Stmt.expressions, Expr.renameAll, renameAll_append,
      allExpressions_rename body, allExpressions_rename otherwise]
  | .whileDo _ body | .forDo _ _ _ _ body =>
    simp only [Stmt.rename, Stmt.expressions, Expr.renameAll, allExpressions_rename body]
  | .ret none | .ret (some _) | .breakLoop | .continueLoop | .assign _ _ | .exec _ => rfl

theorem allExpressions_rename (ss : List Stmt) :
    Stmt.allExpressions (Stmt.renameAll r ss) = Expr.renameAll r (Stmt.allExpressions ss) := by
  match ss with
  | [] => rfl
  | s :: ss =>
    simp only [Stmt.renameAll, Stmt.allExpressions, renameAll_append, expressions_rename s,
      allExpressions_rename ss]

end

end

/-! ### References -/

section

variable {α β : Type} [DecidableEq α] [DecidableEq β] {g : α → β} {as ps : List α}

theorem firsts_map (h : Set.InjOn g { a | a ∈ as }) : firsts (as.map g) = (firsts as).map g := by
  induction as with
  | nil => rfl
  | cons a as ih =>
    have hrest : Set.InjOn g { b | b ∈ as } := h.mono fun b hb => List.mem_cons_of_mem a hb
    have hne : ∀ b ∈ firsts as, decide (g b ≠ g a) = decide (b ≠ a) := by
      intro b hb
      have hmem := List.mem_cons_of_mem a (Compiler.mem_firsts.1 hb)
      rw [decide_eq_decide, not_iff_not]
      exact h.eq_iff hmem List.mem_cons_self
    rw [List.map_cons, firsts, firsts, ih hrest, List.map_cons, List.filter_map]
    exact congrArg _ (congrArg _ (List.filter_congr hne))

theorem filter_not_mem_map (h : Set.InjOn g { a | a ∈ ps ∨ a ∈ as }) :
    (as.map g).filter (· ∉ ps.map g) = (as.filter (· ∉ ps)).map g := by
  have hmem : ∀ a ∈ as, decide (g a ∉ ps.map g) = decide (a ∉ ps) := by
    intro a ha
    rw [decide_eq_decide, not_iff_not, List.mem_map]
    constructor
    · intro hp
      obtain ⟨b, hb, he⟩ := hp
      rwa [← h (.inl hb) (.inr ha) he]
    · intro hp
      exact ⟨a, hp, rfl⟩
  rw [List.filter_map]
  exact congrArg _ (List.filter_congr hmem)

end

namespace Function

def Owns (f : Function) (x : String) : Prop := x ∈ f.parameters ∨ x ∈ f.locals

/-- Different variables of a function get different names, and all of them are identifiers. -/
structure Renames (f : Function) (r : String → String) : Prop where
  injOn : Set.InjOn r { x | f.Owns x }
  isIdentifier : ∀ x, f.Owns x → isIdentifier (r x) = true

variable {f : Function} {r : String → String}

theorem renames_iff : f.Renames r ↔
    (∀ x ∈ f.parameters ++ f.locals, ∀ y ∈ f.parameters ++ f.locals, r x = r y → x = y) ∧
      ∀ x ∈ f.parameters ++ f.locals, Source.isIdentifier (r x) = true := by
  simp only [List.mem_append]
  constructor
  · intro h
    exact ⟨fun x hx y hy => h.injOn hx hy, h.isIdentifier⟩
  · intro h
    exact ⟨fun x hx y hy => h.1 x hx y hy, h.2⟩

instance : Decidable (f.Renames r) := decidable_of_iff _ renames_iff.symm

theorem owns_of_mem_variables {x : String}
    (h : x ∈ Expr.allVariables (Stmt.allExpressions f.body)) : f.Owns x := by
  have hplace := Compiler.Frame.isSome_offset?_iff.1 (Compiler.covers_locals f x h)
  exact hplace.symm

theorem signature_rename (r : String → String) (f : Function) :
    (f.rename r).signature = f.signature := by
  simp only [signature, rename, List.length_map]

theorem callees_rename (r : String → String) (f : Function) : (f.rename r).callees = f.callees := by
  simp only [callees, rename, allExpressions_rename, allCalls_rename]

theorem locals_rename (h : Set.InjOn r { x | f.Owns x }) :
    (f.rename r).locals = f.locals.map r := by
  have hbody : Set.InjOn r { x | x ∈ Expr.allVariables (Stmt.allExpressions f.body) } :=
    h.mono fun x hx => owns_of_mem_variables hx
  have hown : Set.InjOn r { x | x ∈ f.parameters ∨
      x ∈ firsts (Expr.allVariables (Stmt.allExpressions f.body)) } := by
    refine h.mono fun x hx => hx.elim .inl fun hx => ?_
    exact owns_of_mem_variables (Compiler.mem_firsts.1 hx)
  simp only [locals, rename, allExpressions_rename, allVariables_rename, firsts_map hbody]
  exact filter_not_mem_map hown

end Function

/-! ### Tokens -/

def TokenKind.renameBefore (r : String → String) (after : Option TokenKind) : TokenKind → TokenKind
  | name x => if after = some .leftParen then name x else name (r x)
  | k => k

def renameVariables (r : String → String) : List TokenKind → List TokenKind
  | [] => []
  | k :: ks => k.renameBefore r ks.head? :: renameVariables r ks

/-- The tokens of a program with the variables of its functions renamed. A function begins with DEF, and
each has a renaming of its own. -/
def renameFunctions (r : String → String) (rs : List (String → String)) :
    List TokenKind → List TokenKind
  | [] => []
  | k :: ks =>
    if k = .keyword .DEF then k :: renameFunctions (rs.headD id) rs.tail ks
    else k.renameBefore r ks.head? :: renameFunctions r rs ks

section

variable {r : String → String} {rs : List (String → String)} {k : TokenKind} {ks ls : List TokenKind}
  {x : String}

@[simp] theorem renameVariables_nil : renameVariables r [] = [] := rfl

@[simp] theorem renameVariables_cons :
    renameVariables r (k :: ks) = k.renameBefore r ks.head? :: renameVariables r ks := rfl

/-- The last token before an opening parenthesis is no name. -/
def Parted (ks ls : List TokenKind) : Prop :=
  ∀ x, ks.getLast? = some (.name x) → ls.head? ≠ some .leftParen

theorem parted_cons (hk : k ≠ .leftParen) : Parted ks (k :: ls) := by
  intro x _ hx
  exact hk (Option.some.inj hx)

theorem parted_semicolon (h : ks.getLast? = some .semicolon) : Parted ks ls := by
  intro x hx
  rw [h] at hx
  cases hx

theorem renameBefore_head? (h : Parted (k :: ks) ls) :
    k.renameBefore r (ks ++ ls).head? = k.renameBefore r ks.head? := by
  cases ks with
  | cons _ _ => rfl
  | nil =>
    cases k with
    | name x => simp [TokenKind.renameBefore, h x rfl]
    | _ => rfl

theorem Parted.tail (h : Parted (k :: ks) ls) : Parted ks ls := by
  intro x hx
  exact h x (by rw [List.getLast?_cons, hx]; rfl)

theorem renameVariables_append (h : Parted ks ls) :
    renameVariables r (ks ++ ls) = renameVariables r ks ++ renameVariables r ls := by
  induction ks with
  | nil => rfl
  | cons k ks ih =>
    rw [List.cons_append, renameVariables_cons, renameVariables_cons, renameBefore_head? h, ih h.tail,
      List.cons_append]

theorem renameFunctions_append (hdef : .keyword .DEF ∉ ks) (h : Parted ks ls) :
    renameFunctions r rs (ks ++ ls) = renameVariables r ks ++ renameFunctions r rs ls := by
  induction ks with
  | nil => rfl
  | cons k ks ih =>
    have hk : k ≠ .keyword .DEF := fun he => hdef (he ▸ List.mem_cons_self)
    have hks : .keyword .DEF ∉ ks := fun hm => hdef (List.mem_cons_of_mem k hm)
    rw [List.cons_append, renameFunctions, if_neg hk, renameBefore_head? h, ih hks h.tail,
      renameVariables_cons, List.cons_append]

end

namespace Grammar

def Phrase.rename (r : String → String) : Phrase → Phrase
  | expression e => expression (e.rename r)
  | sum e => sum (e.rename r)
  | product e => product (e.rename r)
  | atom e => atom (e.rename r)
  | items es => items (Expr.renameAll r es)
  | arguments es => arguments (Expr.renameAll r es)
  | counter e => counter (e.rename r)
  | range start condition step => range (start.rename r) (condition.rename r) (step.rename r)
  | statement s => statement (s.rename r)
  | block ss => block (Stmt.renameAll r ss)
  | names xs => names (xs.map r)
  | parameters xs => parameters (xs.map r)
  | function f => function (f.rename r)
  | program fs => program (fs.map (Function.rename r))

variable {d : Dialect} {p : Phrase} {ks : List TokenKind} {r : String → String} {f : Function}
  {fs : List Function}

theorem Derives.getLast?_function (h : Derives d (.function f) ks) : ks.getLast? = some .semicolon := by
  cases h
  simp [List.getLast?_cons, List.getLast?_append]

/-- The tokens around one that does not open a parenthesis are renamed each for themselves. -/
theorem renameVariables_around {k : TokenKind} {ls : List TokenKind} (hk : k ≠ .leftParen) :
    renameVariables r (ks ++ k :: ls) =
      renameVariables r ks ++ k.renameBefore r ls.head? :: renameVariables r ls :=
  renameVariables_append (parted_cons hk)

theorem named_renameVariables (h : Named ks) : Named (renameVariables r ks) := by
  obtain ⟨x, ls, rfl⟩ := h
  rw [renameVariables_cons, TokenKind.renameBefore]
  split
  · exact ⟨_, _, rfl⟩
  · exact ⟨_, _, rfl⟩

theorem Derives.renamed (h : Derives d p ks) : Derives d (p.rename r) (renameVariables r ks) := by
  induction h with
  | onlySum _ ih => exact .onlySum ih
  | onlyProduct _ ih => exact .onlyProduct ih
  | onlyAtom _ ih => exact .onlyAtom ih
  | comparison hop _ _ ih ih' =>
    rw [renameVariables_around (by simp)]
    exact .comparison hop ih ih'
  | additive hop _ _ ih ih' =>
    rw [renameVariables_around (by simp)]
    exact .additive hop ih ih'
  | multiplicative hop _ _ ih ih' =>
    rw [renameVariables_around (by simp)]
    exact .multiplicative hop ih ih'
  | unary _ ih => exact .unary ih
  | int => exact .int
  | parens _ ih =>
    rw [renameVariables_cons, renameVariables_around (by simp)]
    exact .parens ih
  | name => exact .name
  | call _ ih =>
    rw [renameVariables_cons, renameVariables_cons, renameVariables_around (by simp)]
    exact .call ih
  | lastItem _ ih => exact .lastItem ih
  | lastItemComma hd _ ih =>
    rw [renameVariables_around (by simp)]
    exact .lastItemComma hd ih
  | moreItems _ _ ih ih' =>
    rw [renameVariables_around (by simp)]
    exact .moreItems ih ih'
  | noArguments => exact .noArguments
  | someArguments _ ih => exact .someArguments ih
  | counter hd _ ih => exact .counter (hd.imp_right named_renameVariables) ih
  | condition _ ih => exact .condition ih
  | startCondition _ _ ih ih' =>
    rw [renameVariables_around (by simp)]
    exact .startCondition ih ih'
  | startConditionStep _ _ _ ih ih' ih'' =>
    rw [renameVariables_around (by simp), renameVariables_around (by simp)]
    exact .startConditionStep ih ih' ih''
  | ifOnly _ _ ih ih' =>
    rw [renameVariables_cons, renameVariables_around (by simp), renameVariables_around (by simp)]
    exact .ifOnly ih ih'
  | ifElse _ _ _ ih ih' ih'' =>
    rw [renameVariables_cons, renameVariables_around (by simp), renameVariables_around (by simp),
      renameVariables_around (by simp)]
    exact .ifElse ih ih' ih''
  | whileDo _ _ ih ih' =>
    rw [renameVariables_cons, renameVariables_around (by simp), renameVariables_around (by simp)]
    exact .whileDo ih ih'
  | forDo _ _ _ ih ih' ih'' =>
    rw [renameVariables_cons, renameVariables_around (by simp), renameVariables_around (by simp),
      renameVariables_around (by simp)]
    exact .forDo ih ih' ih''
  | retNothing => exact .retNothing
  | ret _ ih =>
    rw [renameVariables_cons, renameVariables_around (by simp)]
    exact .ret ih
  | breakLoop => exact .breakLoop
  | continueLoop => exact .continueLoop
  | assign _ _ ih ih' =>
    rw [renameVariables_around (by simp), renameVariables_around (by simp)]
    exact .assign ih ih'
  | exec _ ih =>
    rw [renameVariables_around (by simp)]
    exact .exec ih
  | noStatements => exact .noStatements
  | moreStatements hs _ ih ih' =>
    rw [renameVariables_append (parted_semicolon hs.getLast?_statement)]
    exact .moreStatements ih ih'
  | lastName => exact .lastName
  | lastNameComma hd => exact .lastNameComma hd
  | moreNames _ ih => exact .moreNames ih
  | noParameters => exact .noParameters
  | someParameters _ ih => exact .someParameters ih
  | function _ _ ih ih' =>
    rw [renameVariables_cons, renameVariables_cons, renameVariables_cons,
      renameVariables_around (by simp), renameVariables_around (by simp)]
    exact .function ih ih'
  | noFunctions => exact .noFunctions
  | moreFunctions hf _ ih ih' =>
    rw [renameVariables_append (parted_semicolon hf.getLast?_function)]
    exact .moreFunctions ih ih'

def Phrase.Inner : Phrase → List TokenKind → Prop
  | function _, ks => .keyword .DEF ∉ ks.tail
  | program _, _ => True
  | _, ks => .keyword .DEF ∉ ks

theorem Derives.inner (h : Derives d p ks) : p.Inner ks := by
  induction h with
  | moreFunctions | noFunctions => trivial
  | _ => simp_all [Phrase.Inner]

/-- A function that comes first is renamed for itself. -/
theorem Derives.renameFunctions_append {rs : List (String → String)} (h : Derives d (.function f) ks)
    (before : String → String) (ls : List TokenKind) :
    renameFunctions before (r :: rs) (ks ++ ls) = renameVariables r ks ++ renameFunctions r rs ls := by
  have hlast := h.getLast?_function
  obtain ⟨rest, rfl⟩ := h.begins
  have hinner : .keyword .DEF ∉ rest := h.inner
  have hparted : Parted rest ls := (parted_semicolon hlast).tail
  rw [List.cons_append, renameFunctions, if_pos rfl, List.headD_cons, List.tail_cons,
    Source.renameFunctions_append hinner hparted]
  rfl

theorem Derives.renamed_functions {rs : List (String → String)} (h : Derives d (.program fs) ks)
    (hlen : fs.length = rs.length) (before : String → String) :
    Derives d (.program (rs.zipWith Function.rename fs)) (renameFunctions before rs ks) := by
  induction fs generalizing ks rs before with
  | nil =>
    cases h
    rw [List.zipWith_nil_right]
    exact .noFunctions
  | cons f fs ih =>
    obtain ⟨r, rs, rfl⟩ := List.exists_cons_of_length_eq_add_one hlen.symm
    cases h with
    | moreFunctions hf hfs =>
      rw [hf.renameFunctions_append]
      exact .moreFunctions hf.renamed (ih hfs (Nat.succ.inj hlen) r)

/-! ### Texts -/

theorem Derives.mentioned_names {xs : List String} (h : Derives d (.names xs) ks) : mentioned ks = xs := by
  induction xs generalizing ks with
  | nil => cases h
  | cons x xs ih =>
    cases h with
    | lastName | lastNameComma => rfl
    | moreNames h =>
      rw [mentioned, if_neg (by simp), mentioned, ih h]
      simp

theorem Derives.mentioned_parameters {xs : List String} (h : Derives d (.parameters xs) ks) :
    mentioned ks = xs := by
  cases h with
  | noParameters => rfl
  | someParameters h => exact h.mentioned_names

theorem Derives.owns_of_mentioned (h : Derives d (.function f) ks) : ∀ x ∈ mentioned ks, f.Owns x := by
  cases h with
  | @function g xs body ps ls hps hbody =>
    have hbody' : mentioned ls = Expr.allVariables (Stmt.allExpressions body) := hbody.mentions
    intro x hx
    simp only [mentioned, List.head?_cons, if_true, mentioned_append_cons, ne_eq, reduceCtorEq,
      not_false_eq_true, hps.mentioned_parameters, hbody', List.append_nil, List.mem_append] at hx
    exact hx.elim .inl fun hx => Function.owns_of_mem_variables (f := ⟨g, xs, body⟩) hx

end Grammar

theorem respells_renameVariables {r : String → String} {ks : List TokenKind}
    (h : ∀ x ∈ mentioned ks, isIdentifier (r x) = true) :
    List.Forall₂ TokenKind.Respells ks (renameVariables r ks) := by
  induction ks with
  | nil => exact .nil
  | cons k ks ih =>
    cases k with
    | name x =>
      rw [mentioned] at h
      rw [renameVariables_cons, TokenKind.renameBefore]
      split
      · next hparen =>
        rw [if_pos hparen] at h
        exact .cons (.same _) (ih h)
      · next hparen =>
        rw [if_neg hparen] at h
        obtain ⟨hx, hks⟩ := List.forall_mem_cons.1 h
        exact .cons (.name x hx) (ih hks)
    | _ => exact .cons (.same _) (ih h)

theorem respells_renameFunctions {d : Grammar.Dialect} {fs : List Function} {ks : List TokenKind}
    {rs : List (String → String)} (h : Grammar.Derives d (.program fs) ks)
    (hrs : List.Forall₂ Function.Renames fs rs) (before : String → String) :
    List.Forall₂ TokenKind.Respells ks (renameFunctions before rs ks) := by
  induction hrs generalizing ks before with
  | nil =>
    cases h
    exact .nil
  | @cons f r fs rs hr hrs ih =>
    cases h with
    | moreFunctions hf hfs =>
      have hown := fun x hx => hr.isIdentifier x (hf.owns_of_mentioned x hx)
      rw [hf.renameFunctions_append]
      exact List.rel_append (respells_renameVariables hown) (ih hfs r)

/-- The text of a program with the variables of its functions renamed where they stand. -/
def renamed (rs : List (String → String)) (text : String) : String :=
  match (TokenStream.ofText text).kinds? with
  | some ks => respell text (renameFunctions id rs ks)
  | none => text

theorem kinds?_renamed {text : String} {fs : List Function} {rs : List (String → String)}
    {ks : List TokenKind} (h : parse text = .ok fs) (hrs : List.Forall₂ Function.Renames fs rs)
    (hks : (TokenStream.ofText text).kinds? = some ks) :
    (TokenStream.ofText (renamed rs text)).kinds? = some (renameFunctions id rs ks) := by
  obtain ⟨ls, hls, hd⟩ := derives_of_parse h
  obtain rfl : ks = ls := Option.some.inj (hks.symm.trans hls)
  rw [renamed, hks]
  exact kinds?_respell hks (respells_renameFunctions hd hrs id)

end WordMachine.Source
