import WordMachine.Proofs.Source.Reading

/-!
# What the rules of the grammar read

Every rule reads the tokens derived from its phrase, under every bound. The induction is on the bound,
with all rules of expressions together and then both rules of statements. A rule that goes on with a
phrase that has begun is given the tokens of the beginning, and reads what comes after them.
-/

namespace WordMachine.Source.Grammar

open Rule

def Derived {α : Type} (p : α → Phrase) : Language α := fun ks a => Derives .accepted (p a) ks

/-- The arguments of a call with the parenthesis after them. -/
def Closed : Language (List Expr) := fun ks es =>
  ∃ ls, ks = ls ++ [.rightParen] ∧ Derives .accepted (.arguments es) ls

section

variable {α : Type} {p : α → Phrase} {a : α} {ks : List TokenKind}

@[simp] theorem derived_iff : Derived p ks a ↔ Derives .accepted (p a) ks := Iff.rfl

theorem derives_name : Derives .accepted (.expression (.name "x")) [.name "x"] :=
  .onlySum (.onlyProduct (.onlyAtom .name))

theorem derives_counter : Derives .accepted (.counter (.name "x")) [.name "x"] :=
  .counter (.inr ⟨_, _, rfl⟩) derives_name

theorem fillable_of_derives (h : Derives .accepted (p a) ks) : ((Derived p).after ks).Fillable :=
  ⟨[], a, rfl, by simpa using h⟩

end

structure ExpressionReads (n m : Nat) : Prop where
  expression : ∀ s, Reads (expression n) (fun _ => expression m) s (Derived .expression)
  sum : ∀ s, Reads (sum n) (fun _ => sum m) s (Derived .sum)
  sumFrom : ∀ s left ks, Derives .accepted (.sum left) ks →
    Reads (sumFrom n left) (fun _ => sumFrom m left) s ((Derived .sum).after ks)
  product : ∀ s, Reads (product n) (fun _ => product m) s (Derived .product)
  productFrom : ∀ s left ks, Derives .accepted (.product left) ks →
    Reads (productFrom n left) (fun _ => productFrom m left) s ((Derived .product).after ks)
  atom : ∀ s, Reads (atom n) (fun _ => atom m) s (Derived .atom)
  named : ∀ s x, Reads (named n x) (fun _ => named m x) s ((Derived .atom).after [.name x])
  arguments : ∀ s, Reads (arguments n) (fun _ => arguments m) s Closed

section

variable {n m : Nat}

theorem expression_reads (ih : ExpressionReads n m) (s : TokenStream) :
    Reads (expression (n + 1)) (fun _ => expression (m + 1)) s (Derived .expression) := by
  unfold Grammar.expression
  refine (ih.sum s).bind fun ks left t hleft => ?_
  have hdone : Derives .accepted (.expression left) ks := .onlySum hleft
  have hfill := fillable_of_derives (p := .expression) hdone
  refine reads_peek hfill fun k l hk => ?_
  cases k with
  | binary op =>
    dsimp only
    split
    · next hop =>
      refine reads_take hfill hk (by simp) fun r => ?_
      refine (ih.sum r).bind fun ls right t hright => reads_pure ?_
      simpa using Derives.comparison hop hleft hright
    · exact reads_pure (by simpa using hdone)
  | _ => exact reads_pure (by simpa using hdone)

theorem sum_reads (ih : ExpressionReads n m) (s : TokenStream) :
    Reads (sum (n + 1)) (fun _ => sum (m + 1)) s (Derived .sum) := by
  unfold Grammar.sum
  exact (ih.product s).bind fun ks first t hfirst => ih.sumFrom t first ks (.onlyProduct hfirst)

theorem sumFrom_reads (ih : ExpressionReads n m) (s : TokenStream) {left : Expr} {ks : List TokenKind}
    (hleft : Derives .accepted (.sum left) ks) :
    Reads (sumFrom (n + 1) left) (fun _ => sumFrom (m + 1) left) s ((Derived .sum).after ks) := by
  unfold Grammar.sumFrom
  have hfill := fillable_of_derives (p := .sum) hleft
  refine reads_peek hfill fun k l hk => ?_
  cases k with
  | binary op =>
    dsimp only
    split
    · next hop =>
      refine reads_take hfill hk (by simp) fun r => ?_
      refine (ih.product r).bind fun ls right t hright => ?_
      have hmore := ih.sumFrom t _ _ (.additive hop hleft hright)
      simpa only [Language.after_after, List.append_assoc, List.singleton_append] using hmore
    · exact reads_pure (by simpa using hleft)
  | _ => exact reads_pure (by simpa using hleft)

theorem product_reads (ih : ExpressionReads n m) (s : TokenStream) :
    Reads (product (n + 1)) (fun _ => product (m + 1)) s (Derived .product) := by
  unfold Grammar.product
  exact (ih.atom s).bind fun ks first t hfirst => ih.productFrom t first ks (.onlyAtom hfirst)

theorem productFrom_reads (ih : ExpressionReads n m) (s : TokenStream) {left : Expr}
    {ks : List TokenKind} (hleft : Derives .accepted (.product left) ks) :
    Reads (productFrom (n + 1) left) (fun _ => productFrom (m + 1) left) s
      ((Derived .product).after ks) := by
  unfold Grammar.productFrom
  have hfill := fillable_of_derives (p := .product) hleft
  refine reads_peek hfill fun k l hk => ?_
  cases k with
  | binary op =>
    dsimp only
    split
    · next hop =>
      refine reads_take hfill hk (by simp) fun r => ?_
      refine (ih.atom r).bind fun ls right t hright => ?_
      have hmore := ih.productFrom t _ _ (.multiplicative hop hleft hright)
      simpa only [Language.after_after, List.append_assoc, List.singleton_append] using hmore
    · exact reads_pure (by simpa using hleft)
  | _ => exact reads_pure (by simpa using hleft)

theorem atom_reads (ih : ExpressionReads n m) (s : TokenStream) :
    Reads (atom (n + 1)) (fun _ => atom (m + 1)) s (Derived .atom) := by
  unfold Grammar.atom
  refine reads_next ⟨[.name "x"], .name "x", rfl, .name⟩ fun k l hk => ?_
  cases k with
  | unary op =>
    refine .inr ⟨by simp, fun r => ?_⟩
    refine (ih.atom r).bind fun ks e t he => reads_pure ?_
    simpa using Derives.unary he
  | int w =>
    refine .inr ⟨by simp, fun r => reads_pure ?_⟩
    simpa using Derives.int
  | leftParen =>
    refine .inr ⟨by simp, fun r => ?_⟩
    refine (ih.expression r).bind fun ks e t he => ?_
    refine (reads_expect rfl).bind fun ls _ t hls => reads_pure ?_
    obtain ⟨rfl, _⟩ := hls
    simpa using Derives.parens he
  | name x => exact .inr ⟨by simp, fun r => ih.named r x⟩
  | _ => exact .inl ⟨_, rfl, fun _ => rfl⟩

theorem named_reads (ih : ExpressionReads n m) (s : TokenStream) (x : String) :
    Reads (named (n + 1) x) (fun _ => named (m + 1) x) s ((Derived .atom).after [.name x]) := by
  unfold Grammar.named
  have hfill := fillable_of_derives (p := .atom) (.name (x := x))
  refine reads_peek hfill fun k l hk => ?_
  dsimp only
  split
  · next hparen =>
    refine reads_take hfill hk (by simp [hparen]) fun r => ?_
    refine (ih.arguments r).bind fun ks es t hes => reads_pure ?_
    obtain ⟨ls, rfl, hes⟩ := hes
    simpa [hparen] using Derives.call hes
  · exact reads_pure (by simpa using Derives.name)

theorem arguments_reads_closed (hnm : n ≤ m) {s : TokenStream} {l : Location}
    (hs : s.first? = some ⟨.rightParen, l⟩) :
    Reads (arguments n) (fun _ => arguments m) s (.single [.rightParen] []) := by
  have hfill : (Language.single [.rightParen] ([] : List Expr)).Fillable := ⟨_, _, rfl, rfl, rfl⟩
  cases n with
  | zero => exact reads_exhausted hfill
  | succ n =>
    obtain ⟨m, rfl⟩ := Nat.exists_eq_add_one.2 (Nat.lt_of_lt_of_le (Nat.succ_pos n) hnm)
    unfold Grammar.arguments
    refine reads_peek hfill fun k l' hk => ?_
    rw [hs] at hk
    cases hk
    exact reads_take hfill hs (by simp) fun r => reads_pure ⟨rfl, rfl⟩

theorem arguments_reads (hnm : n ≤ m) (ih : ExpressionReads n m) (s : TokenStream) :
    Reads (arguments (n + 1)) (fun _ => arguments (m + 1)) s Closed := by
  unfold Grammar.arguments
  have hfill : Closed.Fillable := ⟨[.rightParen], [], rfl, [], rfl, .noArguments⟩
  refine reads_peek hfill fun k l hk => ?_
  dsimp only
  split
  · next hparen =>
    refine reads_take hfill hk (by simp [hparen]) fun r => reads_pure ?_
    exact ⟨[], by simp [hparen], .noArguments⟩
  · refine (ih.expression s).bind fun ks e t he => ?_
    have hfill : (Closed.after ks).Fillable :=
      ⟨[.rightParen], [e], rfl, ks, rfl, .someArguments (.lastItem he)⟩
    refine reads_peek hfill fun k l hk => ?_
    cases k with
    | comma =>
      refine reads_take hfill hk (by simp) fun r => ?_
      refine (ih.arguments r).bind fun ls es t hes => reads_pure ?_
      obtain ⟨ls, rfl, hes⟩ := hes
      exact ⟨ks ++ .comma :: ls, by simp, Derives.consArguments rfl he hes⟩
    | rightParen =>
      refine (arguments_reads_closed hnm hk).bind fun ls es t hes => reads_pure ?_
      obtain ⟨rfl, rfl⟩ := hes
      exact ⟨ks, by simp, .someArguments (.lastItem he)⟩
    | _ => exact reads_fail hfill (.expected _ hk)

theorem expressionReads (hnm : n ≤ m) : ExpressionReads n m := by
  induction n generalizing m with
  | zero =>
    have hname : Derives .accepted (.atom (.name "x")) [.name "x"] := .name
    constructor
    · intro s
      exact reads_exhausted ⟨_, _, rfl, .onlySum (.onlyProduct (.onlyAtom hname))⟩
    · intro s
      exact reads_exhausted ⟨_, _, rfl, .onlyProduct (.onlyAtom hname)⟩
    · intro s left ks hleft
      exact reads_exhausted (fillable_of_derives (p := .sum) hleft)
    · intro s
      exact reads_exhausted ⟨_, _, rfl, .onlyAtom hname⟩
    · intro s left ks hleft
      exact reads_exhausted (fillable_of_derives (p := .product) hleft)
    · intro s
      exact reads_exhausted ⟨_, _, rfl, hname⟩
    · intro s x
      exact reads_exhausted (fillable_of_derives (p := .atom) .name)
    · intro s
      exact reads_exhausted ⟨[.rightParen], [], rfl, [], rfl, .noArguments⟩
  | succ n ih =>
    obtain ⟨m, rfl⟩ := Nat.exists_eq_add_one.2 (Nat.lt_of_lt_of_le (Nat.succ_pos n) hnm)
    have hnm := Nat.le_of_succ_le_succ hnm
    have ih := ih hnm
    exact ⟨expression_reads ih, sum_reads ih, fun s _ _ => sumFrom_reads ih s, product_reads ih,
      fun s _ _ => productFrom_reads ih s, atom_reads ih, named_reads ih, arguments_reads hnm ih⟩

end

/-! ### Statements -/

def simple (n : Nat) : Rule Stmt := do
  let e ← expression n
  let u ← peek
  if u.kind = .assign then
    let _ ← next
    let value ← expression n
    expect .semicolon ";"
    return .assign e value
  else
    expect .semicolon ";"
    return .exec e

section

variable {n m : Nat}

theorem loopEnd_reads (s : TokenStream) :
    Reads loopEnd (fun _ => loopEnd) s (.single [.keyword .END, .semicolon] ()) := by
  unfold loopEnd
  refine (reads_expect rfl).bind fun ks _ t hks => ?_
  obtain ⟨rfl, _⟩ := hks
  exact (reads_expect rfl).mono fun ls a hls => ⟨by rw [hls.1]; rfl, rfl⟩

theorem range_reads (hnm : n ≤ m) (s : TokenStream) {first : Expr} {ks : List TokenKind}
    (hfirst : Derives .accepted (.expression first) ks) :
    Reads (range n first) (fun _ => range m first) s
      ((Derived fun r => .range r.1 r.2.1 r.2.2).after ks) := by
  unfold range
  have hexpr := (expressionReads hnm).expression
  have hfill := fillable_of_derives (p := fun r => .range r.1 r.2.1 r.2.2)
    (a := (.int 0, first, .int 1)) (.condition hfirst)
  refine reads_peek hfill fun k l hk => ?_
  dsimp only
  split
  · next hcomma =>
    subst hcomma
    refine reads_take hfill hk (by simp) fun r => ?_
    refine (hexpr r).bind fun ls condition t hcondition => ?_
    have hdone := Derives.startCondition hfirst hcondition
    have hfill := fillable_of_derives (p := fun r => .range r.1 r.2.1 r.2.2)
      (a := (first, condition, .int 1)) hdone
    simp only [Language.after_after, List.append_assoc, List.singleton_append]
    refine reads_peek hfill fun k l hk => ?_
    dsimp only
    split
    · next hcomma =>
      subst hcomma
      refine reads_take hfill hk (by simp) fun r => ?_
      refine (hexpr r).bind fun ms step t hstep => reads_pure ?_
      simpa using Derives.startConditionStep hfirst hcondition hstep
    · exact reads_pure (by simpa using hdone)
  · exact reads_pure (by simpa using Derives.condition hfirst)

/-- An expression that begins with a name can stand after FOR. -/
theorem counter_reads (hnm : n ≤ m) {s : TokenStream} {x : String} {l : Location}
    (hs : s.first? = some ⟨.name x, l⟩) :
    Reads (expression n) (fun _ => expression m) s (Derived .counter) := by
  have hexpr := (expressionReads hnm).expression s
  have hhead : s.head? = some (.name x) := by simp [TokenStream.head?, hs]
  refine ⟨⟨_, _, rfl, derives_counter⟩, fun e t he => ?_, fun e he => ?_⟩
  · obtain ⟨ks, hks, he, hsame⟩ := hexpr.ok e t he
    obtain ⟨k, ls, rfl, _⟩ := he.begins
    cases hks.head?.symm.trans hhead
    exact ⟨_, hks, .counter (.inr ⟨_, _, rfl⟩) he, hsame⟩
  · obtain ⟨ks, v, hks, hv, ⟨ls, a, hls, ha⟩, hsame⟩ := hexpr.error e he
    refine ⟨ks, v, hks, hv, ?_, hsame⟩
    cases ks with
    | nil => exact ⟨_, _, rfl, derives_counter⟩
    | cons k ks =>
      cases hks.head?.symm.trans hhead
      exact ⟨ls, a, hls, .counter (.inr ⟨_, _, rfl⟩) ha⟩

structure StatementReads (n m : Nat) : Prop where
  statement : ∀ s, Reads (statement n) (fun _ => statement m) s (Derived .statement)
  block : ∀ s ends, Reads (block n ends) (fun _ => block m ends) s (Derived .block)

/-- A block stops at one of the keywords that end it. -/
theorem head?_of_block {ends : List Keyword} {s t : TokenStream} {ss : List Stmt}
    (h : block n ends s = some (.ok (ss, t))) : ∃ k ∈ ends, t.head? = some (.keyword k) := by
  induction n generalizing s ss with
  | zero => cases h
  | succ n ih =>
    have hrest : ∀ {s}, (do
        let st ← statement n
        let ss ← block n ends
        return st :: ss : Rule (List Stmt)) s = some (.ok (ss, t)) →
        ∃ k ∈ ends, t.head? = some (.keyword k) := by
      intro s h
      obtain ⟨_, _, _, h⟩ := bind_eq_ok.1 h
      obtain ⟨_, _, hb, h⟩ := bind_eq_ok.1 h
      cases h
      exact ih hb
    unfold block at h
    obtain ⟨⟨k, l⟩, t', hu, h⟩ := bind_eq_ok.1 h
    have hs : t'.head? = some k := by
      cases s <;> cases hu <;> rfl
    cases k with
    | endOfText => cases h
    | keyword k =>
      dsimp only at h
      split at h
      · next hmem =>
        cases h
        exact ⟨k, hmem, hs⟩
      · exact hrest h
    | _ => exact hrest h

theorem body_reads {α : Type} {N : Language α} {g g' : List Stmt → Token → Rule α} {s : TokenStream}
    {ends : List Keyword} (hend : .END ∈ ends)
    (hb : Reads (block n ends) (fun _ => block m ends) s (Derived .block))
    (h : ∀ ks ss k l r, Derives .accepted (.block ss) ks → k ∈ ends →
      Reads (g ss ⟨.keyword k, l⟩) (fun l' => g' ss ⟨.keyword k, l'⟩) r (N.after (ks ++ [.keyword k]))) :
    Reads (block n ends >>= fun ss => next >>= g ss) (fun _ => block m ends >>= fun ss => next >>= g' ss)
      s N := by
  refine .bind_of (fun t => ∃ k ∈ ends, t.head? = some (.keyword k))
    (.token ⟨.keyword .END, .start⟩ (.endOfText .start)) ⟨.END, hend, rfl⟩ hb
    (fun _ _ => head?_of_block) fun ks ss t hss ht => ?_
  obtain ⟨k, hk, ht⟩ := ht
  obtain ⟨l, hl⟩ := TokenStream.first?_of_head? ht
  have hfill : (N.after ks).Fillable := by
    refine .of_after [.keyword .END] rfl ?_
    rw [Language.after_after]
    exact (h ks ss .END .start t hss hend).fill
  refine reads_take hfill hl (by simp) fun r => ?_
  rw [Language.after_after]
  exact h ks ss k l r hss hk

theorem closing_reads {α : Type} {L : Language α} {k : TokenKind} {what : String} {a : α}
    (hk : k.harmless = true) (h : L [k] a) (s : TokenStream) :
    Reads (expect k what >>= fun _ => pure a) (fun _ => expect k what >>= fun _ => pure a) s L := by
  refine (reads_expect hk).bind fun ks _ t hks => reads_pure ?_
  obtain ⟨rfl, _⟩ := hks
  simpa using h

theorem simple_reads (hnm : n ≤ m) (s : TokenStream) :
    Reads (simple n) (fun _ => simple m) s (Derived .statement) := by
  unfold simple
  have hexpr := (expressionReads hnm).expression
  refine (hexpr s).bind fun ks e t he => ?_
  have hfill : ((Derived .statement).after ks).Fillable := ⟨[.semicolon], .exec e, rfl, .exec he⟩
  refine reads_peek hfill fun k l hk => ?_
  dsimp only
  split
  · next hassign =>
    subst hassign
    refine reads_take hfill hk (by simp) fun r => ?_
    refine (hexpr r).bind fun ls value t hvalue => closing_reads rfl ?_ t
    simpa using Derives.assign he hvalue
  · exact closing_reads rfl (Derives.exec he) t

theorem statement_reads (hnm : n ≤ m) (ih : StatementReads n m) (s : TokenStream) :
    Reads (statement (n + 1)) (fun _ => statement (m + 1)) s (Derived .statement) := by
  have hexpr := (expressionReads hnm).expression
  have hfill : (Derived Phrase.statement).Fillable :=
    ⟨[.keyword .BREAK, .semicolon], .breakLoop, rfl, .breakLoop⟩
  unfold Grammar.statement
  refine reads_peek hfill fun k l hk => ?_
  cases k with
  | keyword k =>
    cases k with
    | WHILE =>
      refine reads_take hfill hk (by simp) fun r => ?_
      refine (hexpr r).bind fun ks condition t hcondition => ?_
      refine (reads_expect rfl).bind fun ls _ t hls => ?_
      obtain ⟨rfl, _⟩ := hls
      refine (ih.block t _).bind fun ls body t hbody => ?_
      refine (loopEnd_reads t).bind fun ms _ t hms => reads_pure ?_
      obtain ⟨rfl, _⟩ := hms
      simpa using Derives.whileDo hcondition hbody
    | FOR =>
      refine reads_take hfill hk (by simp) fun r => ?_
      have hfill : ((Derived .statement).after [.keyword .FOR]).Fillable :=
        ⟨[.name "x", .assign, .name "x", .keyword .DO, .keyword .END, .semicolon], _, rfl,
          .forDo derives_counter (.condition derives_name) .noStatements⟩
      refine reads_peek hfill fun k l hk => ?_
      cases k with
      | name x =>
        refine (counter_reads hnm hk).bind fun ks counter t hcounter => ?_
        refine (reads_expect rfl).bind fun ls _ t hls => ?_
        obtain ⟨rfl, _⟩ := hls
        refine (hexpr t).bind fun ls first t hfirst => ?_
        refine (range_reads hnm t hfirst).bind fun ms range t hrange => ?_
        obtain ⟨start, condition, step⟩ := range
        refine (reads_expect rfl).bind fun ns _ t hns => ?_
        obtain ⟨rfl, _⟩ := hns
        refine (ih.block t _).bind fun ns body t hbody => ?_
        refine (loopEnd_reads t).bind fun ps _ t hps => reads_pure ?_
        obtain ⟨rfl, _⟩ := hps
        simpa using Derives.forDo hcounter hrange hbody
      | _ => exact reads_fail hfill (.expected _ hk)
    | IF =>
      refine reads_take hfill hk (by simp) fun r => ?_
      refine (hexpr r).bind fun ks condition t hcondition => ?_
      refine (reads_expect rfl).bind fun ls _ t hls => ?_
      obtain ⟨rfl, _⟩ := hls
      refine body_reads (by simp) (ih.block t _) fun ls body k l r hbody hend => ?_
      dsimp only
      split
      · next helse =>
        refine body_reads (by simp) (ih.block r _) fun ms otherwise k' l r hotherwise hend' => ?_
        obtain rfl := List.mem_singleton.1 hend'
        refine closing_reads rfl ?_ r
        simpa [helse] using Derives.ifElse hcondition hbody hotherwise
      · next helse =>
        obtain rfl : k = .END := by
          simp only [TokenKind.keyword.injEq, List.mem_cons, List.not_mem_nil, or_false] at helse hend
          exact hend.resolve_right helse
        refine closing_reads rfl ?_ r
        simpa using Derives.ifOnly hcondition hbody
    | RETURN =>
      refine reads_take hfill hk (by simp) fun r => ?_
      have hfill : ((Derived .statement).after [.keyword .RETURN]).Fillable :=
        ⟨[.semicolon], .ret none, rfl, .retNothing⟩
      refine reads_peek hfill fun k l hk => ?_
      dsimp only
      split
      · exact closing_reads rfl .retNothing r
      · refine (hexpr r).bind fun ks value t hvalue => closing_reads rfl ?_ t
        simpa using Derives.ret hvalue
    | BREAK => exact reads_take hfill hk (by simp) fun r => closing_reads rfl .breakLoop r
    | CONTINUE => exact reads_take hfill hk (by simp) fun r => closing_reads rfl .continueLoop r
    | _ => exact simple_reads hnm s
  | _ => exact simple_reads hnm s

theorem block_reads (ih : StatementReads n m) (s : TokenStream) (ends : List Keyword) :
    Reads (block (n + 1) ends) (fun _ => block (m + 1) ends) s (Derived .block) := by
  have hfill : (Derived Phrase.block).Fillable := ⟨[], [], rfl, .noStatements⟩
  have hrest : Reads (do
      let st ← statement n
      let ss ← block n ends
      return st :: ss) (fun _ => do
      let st ← statement m
      let ss ← block m ends
      return st :: ss) s (Derived .block) := by
    refine (ih.statement s).bind fun ks st t hst => ?_
    refine (ih.block t ends).bind fun ls ss t hss => reads_pure ?_
    simpa using Derives.moreStatements hst hss
  unfold Grammar.block
  refine reads_peek hfill fun k l hk => ?_
  cases k with
  | endOfText => exact reads_fail hfill (.ended hk)
  | keyword k =>
    dsimp only
    split
    · exact reads_pure .noStatements
    · exact hrest
  | _ => exact hrest

theorem statementReads (hnm : n ≤ m) : StatementReads n m := by
  induction n generalizing m with
  | zero =>
    constructor
    · intro s
      exact reads_exhausted ⟨[.keyword .BREAK, .semicolon], .breakLoop, rfl, .breakLoop⟩
    · intro s ends
      exact reads_exhausted ⟨[], [], rfl, .noStatements⟩
  | succ n ih =>
    obtain ⟨m, rfl⟩ := Nat.exists_eq_add_one.2 (Nat.lt_of_lt_of_le (Nat.succ_pos n) hnm)
    have hnm := Nat.le_of_succ_le_succ hnm
    have ih := ih hnm
    exact ⟨statement_reads hnm ih, block_reads ih⟩

/-! ### Functions -/

theorem parameters_reads (hnm : n ≤ m) (s : TokenStream) :
    Reads (parameters n) (fun _ => parameters m) s (Derived .parameters) := by
  have hfill : (Derived Phrase.parameters).Fillable := ⟨[], [], rfl, .noParameters⟩
  induction n generalizing m s with
  | zero => exact reads_exhausted hfill
  | succ n ih =>
    obtain ⟨m, rfl⟩ := Nat.exists_eq_add_one.2 (Nat.lt_of_lt_of_le (Nat.succ_pos n) hnm)
    unfold parameters
    refine reads_peek hfill fun k l hk => ?_
    cases k with
    | name x =>
      refine reads_take hfill hk (by simp) fun r => ?_
      have hdone : Derives .accepted (.parameters [x]) [.name x] := .someParameters .lastName
      have hfill := fillable_of_derives (p := .parameters) hdone
      refine reads_peek hfill fun k l hk => ?_
      dsimp only
      split
      · next hcomma =>
        subst hcomma
        refine reads_take hfill hk (by simp) fun r => ?_
        refine (ih (Nat.le_of_succ_le_succ hnm) r).bind fun ks xs t hxs => reads_pure ?_
        simpa using Derives.consParameters rfl hxs
      · exact reads_pure (by simpa using hdone)
    | _ => exact reads_pure .noParameters

theorem function_reads (hnm : n ≤ m) (s : TokenStream) :
    Reads (function n) (fun _ => function m) s (Derived .function) := by
  unfold function
  refine (reads_expect rfl).bind fun ks _ t hks => ?_
  obtain ⟨rfl, _⟩ := hks
  have hfill : ((Derived .function).after [.keyword .DEF]).Fillable :=
    ⟨[.name "x", .leftParen, .rightParen, .keyword .END, .semicolon], _, rfl,
      .function .noParameters .noStatements⟩
  refine reads_next hfill fun k l hk => ?_
  cases k with
  | name f =>
    refine .inr ⟨by simp, fun r => ?_⟩
    refine (reads_expect rfl).bind fun ks _ t hks => ?_
    obtain ⟨rfl, _⟩ := hks
    refine (parameters_reads hnm t).bind fun ks xs t hxs => ?_
    refine (reads_expect rfl).bind fun ls _ t hls => ?_
    obtain ⟨rfl, _⟩ := hls
    refine body_reads (by simp) ((statementReads hnm).block t _) fun ls body k l r hbody hend => ?_
    obtain rfl := List.mem_singleton.1 hend
    refine closing_reads rfl ?_ r
    simpa using Derives.function hxs hbody
  | _ => exact .inl ⟨_, rfl, fun _ => rfl⟩

theorem program_reads (hnm : n ≤ m) (s : TokenStream) :
    Reads (program n) (fun _ => program m) s (Derived .program) := by
  have hfill : (Derived Phrase.program).Fillable := ⟨[], [], rfl, .noFunctions⟩
  induction n generalizing m s with
  | zero => exact reads_exhausted hfill
  | succ n ih =>
    obtain ⟨m, rfl⟩ := Nat.exists_eq_add_one.2 (Nat.lt_of_lt_of_le (Nat.succ_pos n) hnm)
    have hnm := Nat.le_of_succ_le_succ hnm
    unfold program
    refine reads_peek hfill fun k l hk => ?_
    dsimp only
    split
    · exact reads_pure .noFunctions
    · refine (function_reads hnm s).bind fun ks f t hf => ?_
      refine (ih hnm t).bind fun ls fs t hfs => reads_pure ?_
      simpa using Derives.moreFunctions hf hfs

theorem head?_of_program {s t : TokenStream} {fs : List Function}
    (h : program n s = some (.ok (fs, t))) : t.head? = some .endOfText := by
  induction n generalizing s fs with
  | zero => cases h
  | succ n ih =>
    unfold program at h
    obtain ⟨⟨k, l⟩, t', hu, h⟩ := bind_eq_ok.1 h
    have hs : t'.head? = some k := by
      cases s <;> cases hu <;> rfl
    dsimp only at h
    split at h
    · next hk =>
      cases h
      rw [hs, hk]
    · obtain ⟨_, _, _, h⟩ := bind_eq_ok.1 h
      obtain ⟨_, _, hp, h⟩ := bind_eq_ok.1 h
      cases h
      exact ih hp

end

end WordMachine.Source.Grammar
