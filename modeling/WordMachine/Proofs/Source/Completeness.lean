import WordMachine.Proofs.Source.Soundness

/-!
# What is derived is read

Whatever is derived from a phrase, the rule for the phrase reads it with the tree of the derivation,
under every bound that is high enough. What follows must not go on with the phrase: after an operand no
parenthesis opens and no operator binds as tightly as those in it. A sum is derived from its end and
read from its start, so what is claimed of one is that the rule for the rest of it goes on from there.
-/

namespace WordMachine.Source

/-- How tightly the operators of a level bind. -/
def Level.rank : Level → Nat
  | comparison => 0
  | additive => 1
  | multiplicative => 2

theorem Level.ne_of_rank_lt {a b : Level} (h : a.rank < b.rank) : a ≠ b := by
  intro hab
  exact Nat.ne_of_lt h (congrArg rank hab)

namespace Grammar

open Rule

def Reaches {α : Type} (p : Nat → Rule α) (s : TokenStream) (a : α) (t : TokenStream) : Prop :=
  ∃ m, ∀ n, m ≤ n → p n s = some (.ok (a, t))

section

variable {α β : Type} {p : Nat → Rule α} {f : Nat → α → Rule β} {g : Nat → Token → Rule α}
  {s t u : TokenStream} {a : α} {b : β} {k : TokenKind} {l : Location}

theorem reaches_pure : Reaches (fun _ => pure a) s a s := ⟨0, fun _ _ => rfl⟩

theorem Reaches.bind (hp : Reaches p s a t) (hf : Reaches (fun n => f n a) t b u) :
    Reaches (fun n => p n >>= f n) s b u := by
  obtain ⟨m, hm⟩ := hp
  obtain ⟨m', hm'⟩ := hf
  refine ⟨max m m', fun n hn => ?_⟩
  exact bind_eq_ok.2 ⟨a, t, hm n (Nat.le_trans (Nat.le_max_left m m') hn),
    hm' n (Nat.le_trans (Nat.le_max_right m m') hn)⟩

theorem Reaches.succ (h : Reaches (fun n => p (n + 1)) s a t) : Reaches p s a t := by
  obtain ⟨m, hm⟩ := h
  refine ⟨m + 1, fun n hn => ?_⟩
  obtain ⟨n, rfl⟩ := Nat.exists_eq_add_one.2 (Nat.lt_of_lt_of_le (Nat.succ_pos m) hn)
  exact hm n (Nat.le_of_succ_le_succ hn)

theorem reaches_peek (hs : s.first? = some ⟨k, l⟩) (h : Reaches (fun n => g n ⟨k, l⟩) s a t) :
    Reaches (fun n => peek >>= g n) s a t := by
  have hp : Reaches (fun _ => peek) s ⟨k, l⟩ s := by
    refine ⟨0, fun n _ => ?_⟩
    cases s <;> cases hs <;> rfl
  exact hp.bind h

theorem reaches_take (h : Reaches (fun n => g n ⟨k, l⟩) s a t) :
    Reaches (fun n => next >>= g n) (.token ⟨k, l⟩ s) a t :=
  Reaches.bind (p := fun _ => next) ⟨0, fun _ _ => rfl⟩ h

theorem reaches_expect {what : String} {f : Nat → Unit → Rule α} (h : Reaches (fun n => f n ()) s a t) :
    Reaches (fun n => expect k what >>= f n) (.token ⟨k, l⟩ s) a t := by
  refine Reaches.bind (p := fun _ => expect k what) ⟨0, fun _ _ => ?_⟩ h
  exact bind_eq_ok.2 ⟨⟨k, l⟩, s, rfl, by simp only [if_true]; rfl⟩

end

/-- No parenthesis opens next, and the next operator binds less tightly than a bound. -/
def Stops (bound : Nat) (s : TokenStream) : Prop :=
  ∃ k, s.head? = some k ∧ k ≠ .leftParen ∧ ∀ op, k = .binary op → op.level.rank < bound

theorem Stops.mono {bound bound' : Nat} {s : TokenStream} (h : Stops bound s) (hb : bound ≤ bound') :
    Stops bound' s := by
  obtain ⟨k, hk, hparen, hop⟩ := h
  exact ⟨k, hk, hparen, fun op ho => Nat.lt_of_lt_of_le (hop op ho) hb⟩

theorem stops_binary {bound : Nat} {op : BinaryOp} {l : Location} {s : TokenStream}
    (h : op.level.rank < bound) : Stops bound (.token ⟨.binary op, l⟩ s) := by
  refine ⟨_, rfl, by simp, fun op' ho => ?_⟩
  cases ho
  exact h

theorem stops_of_head? {bound : Nat} {k : TokenKind} {s : TokenStream} (hs : s.head? = some k)
    (hk : k ≠ .leftParen) (hop : ∀ op, k ≠ .binary op) : Stops bound s :=
  ⟨k, hs, hk, fun op ho => absurd ho (hop op)⟩

def Phrase.Read : Phrase → List TokenKind → Prop
  | expression e, ks => ∀ s t, Leads ks s t → Stops 0 t → Reaches Grammar.expression s e t
  | sum e, ks => ∀ s t a u, Leads ks s t → Stops 2 t → Reaches (sumFrom · e) t a u →
    Reaches Grammar.sum s a u
  | product e, ks => ∀ s t a u, Leads ks s t → Stops 3 t → Reaches (productFrom · e) t a u →
    Reaches Grammar.product s a u
  | atom e, ks => ∀ s t, Leads ks s t → Stops 3 t → Reaches Grammar.atom s e t
  | items es, ks | arguments es, ks => ∀ s l t, Leads ks s (.token ⟨.rightParen, l⟩ t) →
    Reaches Grammar.arguments s es t
  | counter e, ks => Named ks ∧ ∀ s t, Leads ks s t → Stops 0 t → Reaches Grammar.expression s e t
  | range start condition step, ks => ∀ s t, Leads ks s t → t.head? = some (.keyword .DO) →
    ∃ first u, Reaches Grammar.expression s first u ∧
      Reaches (Grammar.range · first) u (start, condition, step) t
  | statement st, ks => ∀ s t, Leads ks s t → Reaches Grammar.statement s st t
  | block ss, ks => ∀ s t (ends : List Keyword), Leads ks s t → (∀ k ∈ ends, k = .END ∨ k = .ELSE) →
    (∃ k ∈ ends, t.head? = some (.keyword k)) → Reaches (Grammar.block · ends) s ss t
  | names xs, ks | parameters xs, ks => ∀ s t, Leads ks s t → t.head? = some .rightParen →
    Reaches Grammar.parameters s xs t
  | function f, ks => ∀ s t, Leads ks s t → Reaches Grammar.function s f t
  | program fs, ks => ∀ s l, Leads ks s (.endOfText l) → Reaches Grammar.program s fs (.endOfText l)

/-! ### Expressions -/

section

variable {s t : TokenStream} {e : Expr}

theorem sumFrom_done (h : Stops 1 t) : Reaches (sumFrom · e) t e t := by
  obtain ⟨k, hk, _, hop⟩ := h
  obtain ⟨l, hl⟩ := TokenStream.first?_of_head? hk
  refine .succ ?_
  simp only [sumFrom]
  refine reaches_peek hl ?_
  cases k with
  | binary op =>
    have hne : op.level ≠ .additive := Level.ne_of_rank_lt (hop op rfl)
    simp only [if_neg hne]
    exact reaches_pure
  | _ => exact reaches_pure

theorem productFrom_done (h : Stops 2 t) : Reaches (productFrom · e) t e t := by
  obtain ⟨k, hk, _, hop⟩ := h
  obtain ⟨l, hl⟩ := TokenStream.first?_of_head? hk
  refine .succ ?_
  simp only [productFrom]
  refine reaches_peek hl ?_
  cases k with
  | binary op =>
    have hne : op.level ≠ .multiplicative := Level.ne_of_rank_lt (hop op rfl)
    simp only [if_neg hne]
    exact reaches_pure
  | _ => exact reaches_pure

end

section

variable {e left right : Expr} {es : List Expr} {op : BinaryOp} {u : UnaryOp} {x : String}
  {ks ls : List TokenKind}

theorem read_expression_of_sum (h : (Phrase.sum e).Read ks) : (Phrase.expression e).Read ks := by
  intro s t hks ht
  refine .succ ?_
  simp only [Grammar.expression]
  refine (h s t e t hks (ht.mono (by omega)) (sumFrom_done (ht.mono (by omega)))).bind ?_
  obtain ⟨k, hk, _, hop⟩ := ht
  obtain ⟨l, hl⟩ := TokenStream.first?_of_head? hk
  refine reaches_peek hl ?_
  cases k with
  | binary op => exact absurd (hop op rfl) (Nat.not_lt_zero _)
  | _ => exact reaches_pure

theorem read_comparison (hop : op.level = .comparison) (hl : (Phrase.sum left).Read ks)
    (hr : (Phrase.sum right).Read ls) :
    (Phrase.expression (.binary op left right)).Read (ks ++ .binary op :: ls) := by
  intro s t h ht
  obtain ⟨r, hks, l, r, rfl, hls⟩ := leads_append.1 h
  refine .succ ?_
  simp only [Grammar.expression]
  have hstop : Stops 1 (.token ⟨.binary op, l⟩ r) := stops_binary (by simp [hop, Level.rank])
  refine (hl s _ left _ hks (hstop.mono (by omega)) (sumFrom_done hstop)).bind ?_
  refine reaches_peek rfl ?_
  simp only [if_pos hop]
  refine reaches_take ?_
  exact (hr r t right t hls (ht.mono (by omega)) (sumFrom_done (ht.mono (by omega)))).bind reaches_pure

theorem read_sum_of_product (h : (Phrase.product e).Read ks) : (Phrase.sum e).Read ks := by
  intro s t a u hks ht hu
  refine .succ ?_
  simp only [Grammar.sum]
  exact (h s t e t hks (ht.mono (by omega)) (productFrom_done ht)).bind hu

theorem read_additive (hop : op.level = .additive) (hl : (Phrase.sum left).Read ks)
    (hr : (Phrase.product right).Read ls) :
    (Phrase.sum (.binary op left right)).Read (ks ++ .binary op :: ls) := by
  intro s t a u h ht hu
  obtain ⟨r, hks, l, r, rfl, hls⟩ := leads_append.1 h
  have hstop : Stops 2 (.token ⟨.binary op, l⟩ r) := stops_binary (by simp [hop, Level.rank])
  refine hl s _ a u hks hstop (.succ ?_)
  simp only [sumFrom]
  refine reaches_peek rfl ?_
  simp only [if_pos hop]
  refine reaches_take ?_
  exact (hr r t right t hls (ht.mono (by omega)) (productFrom_done ht)).bind hu

theorem read_product_of_atom (h : (Phrase.atom e).Read ks) : (Phrase.product e).Read ks := by
  intro s t a u hks ht hu
  refine .succ ?_
  simp only [Grammar.product]
  exact (h s t hks ht).bind hu

theorem read_multiplicative (hop : op.level = .multiplicative) (hl : (Phrase.product left).Read ks)
    (hr : (Phrase.atom right).Read ls) :
    (Phrase.product (.binary op left right)).Read (ks ++ .binary op :: ls) := by
  intro s t a u h ht hu
  obtain ⟨r, hks, l, r, rfl, hls⟩ := leads_append.1 h
  have hstop : Stops 3 (.token ⟨.binary op, l⟩ r) := stops_binary (by simp [hop, Level.rank])
  refine hl s _ a u hks hstop (.succ ?_)
  simp only [productFrom]
  refine reaches_peek rfl ?_
  simp only [if_pos hop]
  refine reaches_take ?_
  exact (hr r t hls ht).bind hu

theorem read_unary (h : (Phrase.atom e).Read ks) : (Phrase.atom (.unary u e)).Read (.unary u :: ks) := by
  intro s t hks ht
  obtain ⟨l, r, rfl, hks⟩ := hks
  refine .succ ?_
  simp only [Grammar.atom]
  refine reaches_take ?_
  exact (h r t hks ht).bind reaches_pure

theorem read_parens (h : (Phrase.expression e).Read ks) :
    (Phrase.atom e).Read (.leftParen :: (ks ++ [.rightParen])) := by
  intro s t h' _
  obtain ⟨l, r, rfl, h'⟩ := h'
  obtain ⟨_, hks, l', r', rfl, rfl⟩ := leads_append.1 h'
  refine .succ ?_
  simp only [Grammar.atom]
  refine reaches_take ?_
  refine (h r _ hks (stops_of_head? rfl (by simp) (by simp))).bind ?_
  exact reaches_expect reaches_pure

theorem read_int {w : Word} : (Phrase.atom (.int w)).Read [.int w] := by
  intro s t hks _
  obtain ⟨l, r, rfl, rfl⟩ := hks
  refine .succ ?_
  simp only [Grammar.atom]
  exact reaches_take reaches_pure

theorem read_name : (Phrase.atom (.name x)).Read [.name x] := by
  intro s t hks ht
  obtain ⟨l, r, rfl, rfl⟩ := hks
  obtain ⟨k, hk, hparen, _⟩ := ht
  obtain ⟨l', hl⟩ := TokenStream.first?_of_head? hk
  refine .succ ?_
  simp only [Grammar.atom]
  refine reaches_take (.succ ?_)
  simp only [named]
  refine reaches_peek hl ?_
  simp only [if_neg hparen]
  exact reaches_pure

theorem read_call (h : (Phrase.arguments es).Read ks) :
    (Phrase.atom (.call x es)).Read (.name x :: .leftParen :: (ks ++ [.rightParen])) := by
  intro s t h' _
  obtain ⟨l, _, rfl, l', r, rfl, h'⟩ := h'
  obtain ⟨_, hks, l'', r', rfl, rfl⟩ := leads_append.1 h'
  refine .succ ?_
  simp only [Grammar.atom]
  refine reaches_take (.succ ?_)
  simp only [named]
  refine reaches_peek rfl ?_
  simp only [if_true]
  refine reaches_take ?_
  exact (h r l'' _ hks).bind reaches_pure

theorem read_noArguments : (Phrase.arguments []).Read [] := by
  intro s l t h
  cases h
  refine .succ ?_
  simp only [Grammar.arguments]
  refine reaches_peek rfl ?_
  simp only [if_true]
  exact reaches_take reaches_pure

theorem ne_rightParen_of_begins {s t : TokenStream} (hb : (Phrase.expression e).Begins ks)
    (hks : Leads ks s t) : ∃ k l, s.first? = some ⟨k, l⟩ ∧ k ≠ .rightParen := by
  obtain ⟨k, ls, rfl, hk⟩ := hb
  obtain ⟨l, hl⟩ := TokenStream.first?_of_head? hks.head?
  refine ⟨k, l, hl, ?_⟩
  rintro rfl
  cases hk

theorem reaches_last_argument {s t : TokenStream} {l : Location} (hb : (Phrase.expression e).Begins ks)
    (h : (Phrase.expression e).Read ks) (hks : Leads ks s (.token ⟨.rightParen, l⟩ t)) :
    Reaches Grammar.arguments s [e] t := by
  obtain ⟨k, l', hs, hk⟩ := ne_rightParen_of_begins hb hks
  refine .succ ?_
  simp only [Grammar.arguments]
  refine reaches_peek hs ?_
  simp only [if_neg hk]
  refine (h s _ hks (stops_of_head? rfl (by simp) (by simp))).bind ?_
  refine reaches_peek rfl ?_
  exact (read_noArguments _ _ _ rfl).bind reaches_pure

theorem reaches_more_arguments {s t u : TokenStream} {l : Location}
    (hb : (Phrase.expression e).Begins ks) (h : (Phrase.expression e).Read ks)
    (hks : Leads ks s (.token ⟨.comma, l⟩ t)) (hes : Reaches Grammar.arguments t es u) :
    Reaches Grammar.arguments s (e :: es) u := by
  obtain ⟨k, l', hs, hk⟩ := ne_rightParen_of_begins hb hks
  refine .succ ?_
  simp only [Grammar.arguments]
  refine reaches_peek hs ?_
  simp only [if_neg hk]
  refine (h s _ hks (stops_of_head? rfl (by simp) (by simp))).bind ?_
  refine reaches_peek rfl (reaches_take ?_)
  exact hes.bind reaches_pure

end

/-! ### Statements -/

section

variable {e start condition step counter target : Expr} {st : Stmt} {ss otherwise body : List Stmt}
  {ks ls ms : List TokenKind} {s t : TokenStream} {x : String} {xs : List String}

theorem stops_token {k : TokenKind} {l : Location} (hk : k ≠ .leftParen) (hop : ∀ op, k ≠ .binary op) :
    Stops 0 (.token ⟨k, l⟩ s) := stops_of_head? rfl hk hop

theorem read_condition (h : (Phrase.expression e).Read ks) :
    (Phrase.range (.int 0) e (.int 1)).Read ks := by
  intro s t hks ht
  refine ⟨e, t, h s t hks (stops_of_head? ht (by simp) (by simp)), ?_⟩
  obtain ⟨l, hl⟩ := TokenStream.first?_of_head? ht
  simp only [Grammar.range]
  refine reaches_peek hl ?_
  exact reaches_pure

theorem read_startCondition (hstart : (Phrase.expression start).Read ks)
    (h : (Phrase.expression e).Read ls) :
    (Phrase.range start e (.int 1)).Read (ks ++ .comma :: ls) := by
  intro s t h' ht
  obtain ⟨_, hks, l, r, rfl, hls⟩ := leads_append.1 h'
  obtain ⟨l', hl⟩ := TokenStream.first?_of_head? ht
  refine ⟨start, _, hstart s _ hks (stops_token (by simp) (by simp)), ?_⟩
  simp only [Grammar.range]
  refine reaches_peek rfl (reaches_take ?_)
  refine (h r t hls (stops_of_head? ht (by simp) (by simp))).bind ?_
  refine reaches_peek hl ?_
  exact reaches_pure

theorem read_startConditionStep (hstart : (Phrase.expression start).Read ks)
    (h : (Phrase.expression e).Read ls) (hstep : (Phrase.expression step).Read ms) :
    (Phrase.range start e step).Read (ks ++ .comma :: (ls ++ .comma :: ms)) := by
  intro s t h' ht
  obtain ⟨_, hks, l, r, rfl, h'⟩ := leads_append.1 h'
  obtain ⟨_, hls, l', r', rfl, hms⟩ := leads_append.1 h'
  refine ⟨start, _, hstart s _ hks (stops_token (by simp) (by simp)), ?_⟩
  simp only [Grammar.range]
  refine reaches_peek rfl (reaches_take ?_)
  refine (h r _ hls (stops_token (by simp) (by simp))).bind ?_
  refine reaches_peek rfl (reaches_take ?_)
  exact (hstep r' t hms (stops_of_head? ht (by simp) (by simp))).bind reaches_pure

theorem reaches_loopEnd {l l' : Location} :
    Reaches (fun _ => loopEnd) (.token ⟨.keyword .END, l⟩ (.token ⟨.semicolon, l'⟩ t)) () t :=
  reaches_expect ⟨0, fun _ _ => rfl⟩

theorem reaches_body {l : Location} (h : (Phrase.block ss).Read ks)
    (hks : Leads ks s (.token ⟨.keyword .END, l⟩ t)) :
    Reaches (Grammar.block · [.END]) s ss (.token ⟨.keyword .END, l⟩ t) :=
  h s _ _ hks (by simp) ⟨.END, by simp, rfl⟩

theorem read_whileDo (h : (Phrase.expression e).Read ks) (hbody : (Phrase.block body).Read ls) :
    (Phrase.statement (.whileDo e body)).Read
      (.keyword .WHILE :: (ks ++ .keyword .DO :: (ls ++ [.keyword .END, .semicolon]))) := by
  intro s t h'
  obtain ⟨_, r, rfl, h'⟩ := h'
  obtain ⟨_, hks, _, r', rfl, h'⟩ := leads_append.1 h'
  obtain ⟨_, hls, _, _, rfl, _, _, rfl, rfl⟩ := leads_append.1 h'
  refine .succ ?_
  simp only [Grammar.statement]
  refine reaches_peek rfl (reaches_take ?_)
  refine (h r _ hks (stops_token (by simp) (by simp))).bind (reaches_expect ?_)
  refine (reaches_body hbody hls).bind ?_
  exact reaches_loopEnd.bind reaches_pure

theorem read_forDo (hcounter : (Phrase.counter counter).Read ks)
    (hrange : (Phrase.range start e step).Read ls) (hbody : (Phrase.block body).Read ms) :
    (Phrase.statement (.forDo counter start e step body)).Read (.keyword .FOR ::
      (ks ++ .assign :: (ls ++ .keyword .DO :: (ms ++ [.keyword .END, .semicolon])))) := by
  intro s t h'
  obtain ⟨_, r, rfl, h'⟩ := h'
  obtain ⟨_, hks, _, r', rfl, h'⟩ := leads_append.1 h'
  obtain ⟨_, hls, _, r'', rfl, h'⟩ := leads_append.1 h'
  obtain ⟨_, hms, _, _, rfl, _, _, rfl, rfl⟩ := leads_append.1 h'
  obtain ⟨⟨x, ks, rfl⟩, hcounter⟩ := hcounter
  obtain ⟨l, hl⟩ := TokenStream.first?_of_head? hks.head?
  obtain ⟨first, u, hfirst, hrange⟩ := hrange r' _ hls rfl
  refine .succ ?_
  simp only [Grammar.statement]
  refine reaches_peek rfl (reaches_take ?_)
  refine reaches_peek hl ?_
  refine (hcounter r _ hks (stops_token (by simp) (by simp))).bind (reaches_expect ?_)
  refine hfirst.bind (hrange.bind (reaches_expect ?_))
  refine (reaches_body hbody hms).bind ?_
  exact reaches_loopEnd.bind reaches_pure

theorem read_ifOnly (h : (Phrase.expression e).Read ks) (hbody : (Phrase.block body).Read ls) :
    (Phrase.statement (.ifElse e body [])).Read
      (.keyword .IF :: (ks ++ .keyword .THEN :: (ls ++ [.keyword .END, .semicolon]))) := by
  intro s t h'
  obtain ⟨_, r, rfl, h'⟩ := h'
  obtain ⟨_, hks, _, r', rfl, h'⟩ := leads_append.1 h'
  obtain ⟨_, hls, _, _, rfl, _, _, rfl, rfl⟩ := leads_append.1 h'
  refine .succ ?_
  simp only [Grammar.statement]
  refine reaches_peek rfl (reaches_take ?_)
  refine (h r _ hks (stops_token (by simp) (by simp))).bind (reaches_expect ?_)
  refine (hbody r' _ [.END, .ELSE] hls (by simp) ⟨.END, by simp, rfl⟩).bind (reaches_take ?_)
  exact reaches_expect reaches_pure

theorem read_ifElse (h : (Phrase.expression e).Read ks) (hbody : (Phrase.block body).Read ls)
    (hotherwise : (Phrase.block otherwise).Read ms) :
    (Phrase.statement (.ifElse e body otherwise)).Read (.keyword .IF ::
      (ks ++ .keyword .THEN :: (ls ++ .keyword .ELSE :: (ms ++ [.keyword .END, .semicolon])))) := by
  intro s t h'
  obtain ⟨_, r, rfl, h'⟩ := h'
  obtain ⟨_, hks, _, r', rfl, h'⟩ := leads_append.1 h'
  obtain ⟨_, hls, _, r'', rfl, h'⟩ := leads_append.1 h'
  obtain ⟨_, hms, _, _, rfl, _, _, rfl, rfl⟩ := leads_append.1 h'
  refine .succ ?_
  simp only [Grammar.statement]
  refine reaches_peek rfl (reaches_take ?_)
  refine (h r _ hks (stops_token (by simp) (by simp))).bind (reaches_expect ?_)
  refine (hbody r' _ [.END, .ELSE] hls (by simp) ⟨.ELSE, by simp, rfl⟩).bind (reaches_take ?_)
  simp only [if_true]
  refine (reaches_body hotherwise hms).bind ?_
  exact reaches_take (reaches_expect reaches_pure)

theorem read_ret (hb : (Phrase.expression e).Begins ks) (h : (Phrase.expression e).Read ks) :
    (Phrase.statement (.ret (some e))).Read (.keyword .RETURN :: (ks ++ [.semicolon])) := by
  intro s t h'
  obtain ⟨_, r, rfl, h'⟩ := h'
  obtain ⟨_, hks, _, _, rfl, rfl⟩ := leads_append.1 h'
  obtain ⟨k, ls, rfl, hk⟩ := hb
  obtain ⟨l, hl⟩ := TokenStream.first?_of_head? hks.head?
  have hne : k ≠ .semicolon := by
    rintro rfl
    cases hk
  refine .succ ?_
  simp only [Grammar.statement]
  refine reaches_peek rfl (reaches_take ?_)
  refine reaches_peek hl ?_
  simp only [if_neg hne]
  refine (h r _ hks (stops_token (by simp) (by simp))).bind ?_
  exact reaches_expect reaches_pure

theorem reaches_simple {k : TokenKind} (hs : s.head? = some k) (hk : k.beginsOperand = true)
    (h : Reaches simple s st t) : Reaches Grammar.statement s st t := by
  obtain ⟨l, hl⟩ := TokenStream.first?_of_head? hs
  refine .succ ?_
  simp only [Grammar.statement]
  refine reaches_peek hl ?_
  cases k with
  | keyword k => cases hk
  | _ => exact h

theorem read_assign (hb : (Phrase.expression target).Begins ks)
    (htarget : (Phrase.expression target).Read ks)
    (h : (Phrase.expression e).Read ls) :
    (Phrase.statement (.assign target e)).Read (ks ++ .assign :: (ls ++ [.semicolon])) := by
  intro s t h'
  obtain ⟨_, hks, _, r, rfl, h'⟩ := leads_append.1 h'
  obtain ⟨_, hls, _, _, rfl, rfl⟩ := leads_append.1 h'
  obtain ⟨k, _, rfl, hk⟩ := hb
  refine reaches_simple hks.head? hk ?_
  unfold simple
  refine (htarget s _ hks (stops_token (by simp) (by simp))).bind ?_
  refine reaches_peek rfl (reaches_take ?_)
  refine (h r _ hls (stops_token (by simp) (by simp))).bind ?_
  exact reaches_expect reaches_pure

theorem read_exec (hb : (Phrase.expression e).Begins ks) (h : (Phrase.expression e).Read ks) :
    (Phrase.statement (.exec e)).Read (ks ++ [.semicolon]) := by
  intro s t h'
  obtain ⟨_, hks, _, _, rfl, rfl⟩ := leads_append.1 h'
  obtain ⟨k, _, rfl, hk⟩ := hb
  refine reaches_simple hks.head? hk ?_
  unfold simple
  refine (h s _ hks (stops_token (by simp) (by simp))).bind ?_
  refine reaches_peek rfl ?_
  exact reaches_expect reaches_pure

theorem read_noStatements : (Phrase.block []).Read [] := by
  intro s t ends h _ ht
  cases h
  obtain ⟨k, hk, hs⟩ := ht
  obtain ⟨l, hl⟩ := TokenStream.first?_of_head? hs
  refine .succ ?_
  simp only [Grammar.block]
  refine reaches_peek hl ?_
  simp only [if_pos hk]
  exact reaches_pure

theorem read_moreStatements (hb : (Phrase.statement st).Begins ks) (hst : (Phrase.statement st).Read ks)
    (hss : (Phrase.block ss).Read ls) : (Phrase.block (st :: ss)).Read (ks ++ ls) := by
  intro s t ends h hends ht
  obtain ⟨r, hks, hls⟩ := leads_append.1 h
  obtain ⟨k, _, rfl, hk⟩ := hb
  obtain ⟨l, hl⟩ := TokenStream.first?_of_head? hks.head?
  have hmore : Reaches (fun n => do
      let st ← Grammar.statement n
      let ss ← Grammar.block n ends
      return st :: ss) s (st :: ss) t :=
    (hst s r hks).bind ((hss r t ends hls hends ht).bind reaches_pure)
  refine .succ ?_
  simp only [Grammar.block]
  refine reaches_peek hl ?_
  cases k with
  | endOfText => cases hk
  | keyword k =>
    have hne : k ∉ ends := by
      intro hmem
      obtain rfl | rfl := hends k hmem <;> cases hk
    simp only [if_neg hne]
    exact hmore
  | _ => exact hmore

end

/-! ### Functions -/

section

variable {x f : String} {xs : List String} {body : List Stmt} {g : Function} {gs : List Function}
  {ks ls : List TokenKind}

theorem read_noParameters : (Phrase.parameters []).Read [] := by
  intro s t h ht
  cases h
  obtain ⟨l, hl⟩ := TokenStream.first?_of_head? ht
  refine .succ ?_
  simp only [Grammar.parameters]
  refine reaches_peek hl ?_
  exact reaches_pure

theorem read_lastName : (Phrase.names [x]).Read [.name x] := by
  intro s t h ht
  obtain ⟨_, _, rfl, rfl⟩ := h
  obtain ⟨l, hl⟩ := TokenStream.first?_of_head? ht
  refine .succ ?_
  simp only [Grammar.parameters]
  refine reaches_peek rfl (reaches_take ?_)
  refine reaches_peek hl ?_
  exact reaches_pure

theorem read_moreNames (h : (Phrase.parameters xs).Read ks) :
    (Phrase.names (x :: xs)).Read (.name x :: .comma :: ks) := by
  intro s t h' ht
  obtain ⟨_, _, rfl, _, r, rfl, hks⟩ := h'
  refine .succ ?_
  simp only [Grammar.parameters]
  refine reaches_peek rfl (reaches_take ?_)
  refine reaches_peek rfl (reaches_take ?_)
  exact (h r t hks ht).bind reaches_pure

theorem read_function (hxs : (Phrase.parameters xs).Read ks) (hbody : (Phrase.block body).Read ls) :
    (Phrase.function ⟨f, xs, body⟩).Read (.keyword .DEF :: .name f :: .leftParen ::
      (ks ++ .rightParen :: (ls ++ [.keyword .END, .semicolon]))) := by
  intro s t h'
  obtain ⟨_, _, rfl, _, _, rfl, _, r, rfl, h'⟩ := h'
  obtain ⟨_, hks, _, r', rfl, h'⟩ := leads_append.1 h'
  obtain ⟨_, hls, _, _, rfl, _, _, rfl, rfl⟩ := leads_append.1 h'
  unfold Grammar.function
  refine reaches_expect (reaches_take (reaches_expect ?_))
  refine (hxs r _ hks rfl).bind (reaches_expect ?_)
  refine (reaches_body hbody hls).bind (reaches_take ?_)
  exact reaches_expect reaches_pure

theorem read_noFunctions : (Phrase.program []).Read [] := by
  intro s l h
  cases h
  refine .succ ?_
  simp only [Grammar.program]
  refine reaches_peek rfl ?_
  exact reaches_pure

theorem read_moreFunctions (hb : (Phrase.function g).Begins ks) (hg : (Phrase.function g).Read ks)
    (hgs : (Phrase.program gs).Read ls) : (Phrase.program (g :: gs)).Read (ks ++ ls) := by
  intro s l h
  obtain ⟨r, hks, hls⟩ := leads_append.1 h
  obtain ⟨_, rfl⟩ := hb
  obtain ⟨l', hl'⟩ := TokenStream.first?_of_head? hks.head?
  refine .succ ?_
  simp only [Grammar.program]
  refine reaches_peek hl' ?_
  exact (hg s r hks).bind ((hgs r l hls).bind reaches_pure)

end

theorem Derives.read {p : Phrase} {ks : List TokenKind} (h : Derives .accepted p ks) : p.Read ks := by
  induction h with
  | onlySum _ ih => exact read_expression_of_sum ih
  | comparison hop _ _ ihl ihr => exact read_comparison hop ihl ihr
  | onlyProduct _ ih => exact read_sum_of_product ih
  | additive hop _ _ ihl ihr => exact read_additive hop ihl ihr
  | onlyAtom _ ih => exact read_product_of_atom ih
  | multiplicative hop _ _ ihl ihr => exact read_multiplicative hop ihl ihr
  | unary _ ih => exact read_unary ih
  | int => exact read_int
  | parens _ ih => exact read_parens ih
  | name => exact read_name
  | call _ ih => exact read_call ih
  | lastItem h ih => exact fun s l t hks => reaches_last_argument h.begins ih hks
  | lastItemComma _ h ih =>
    intro s l t h'
    obtain ⟨_, hks, _, _, rfl, rfl⟩ := leads_append.1 h'
    exact reaches_more_arguments h.begins ih hks (read_noArguments _ _ _ rfl)
  | moreItems h _ ih ihs =>
    intro s l t h'
    obtain ⟨_, hks, _, r, rfl, hls⟩ := leads_append.1 h'
    exact reaches_more_arguments h.begins ih hks (ihs r l t hls)
  | noArguments => exact read_noArguments
  | someArguments _ ih => exact ih
  | counter h _ ih => exact ⟨h.resolve_left (by decide), ih⟩
  | condition _ ih => exact read_condition ih
  | startCondition _ _ ihs ih => exact read_startCondition ihs ih
  | startConditionStep _ _ _ ihs ih ihstep => exact read_startConditionStep ihs ih ihstep
  | ifOnly _ _ ih ihbody => exact read_ifOnly ih ihbody
  | ifElse _ _ _ ih ihbody ihotherwise => exact read_ifElse ih ihbody ihotherwise
  | whileDo _ _ ih ihbody => exact read_whileDo ih ihbody
  | forDo _ _ _ ihcounter ihrange ihbody => exact read_forDo ihcounter ihrange ihbody
  | retNothing =>
    intro s t h
    obtain ⟨_, _, rfl, _, _, rfl, rfl⟩ := h
    refine .succ (reaches_peek rfl (reaches_take ?_))
    exact reaches_peek rfl (reaches_expect reaches_pure)
  | ret h ih => exact read_ret h.begins ih
  | breakLoop | continueLoop =>
    intro s t h
    obtain ⟨_, _, rfl, _, _, rfl, rfl⟩ := h
    exact .succ (reaches_peek rfl (reaches_take (reaches_expect reaches_pure)))
  | assign h _ ihtarget ih => exact read_assign h.begins ihtarget ih
  | exec h ih => exact read_exec h.begins ih
  | noStatements => exact read_noStatements
  | moreStatements h _ ih ihs => exact read_moreStatements h.begins ih ihs
  | lastName => exact read_lastName
  | lastNameComma => exact read_moreNames read_noParameters
  | moreNames _ ih => exact read_moreNames ih
  | noParameters => exact read_noParameters
  | someParameters _ ih => exact ih
  | function _ _ ih ihbody => exact read_function ih ihbody
  | noFunctions => exact read_noFunctions
  | moreFunctions h _ ih ihs => exact read_moreFunctions h.begins ih ihs

end Grammar

end WordMachine.Source
