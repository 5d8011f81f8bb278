import WordMachine.Source.Lexer

/-!
# Looking ahead

A lexer may be asked for the next token's kind before the token is taken. However the two requests are
mixed, up to the first that fails, the answers are those that taking tokens alone gives: a token that has
been looked at is the one that is taken next, and an error is met at the same token.
-/

namespace WordMachine.Source

/-! ### Requests and answers -/

inductive Request
  | peek
  | next
deriving DecidableEq

inductive Answer
  | peeked (k : TokenKind)
  | taken (t : Token)
deriving DecidableEq

namespace Answer

def request : Answer → Request
  | peeked _ => .peek
  | taken _ => .next

def token? : Answer → Option Token
  | peeked _ => none
  | taken t => some t

end Answer

def tokensTaken (as : List Answer) : List Token := as.filterMap Answer.token?

/-- Asks one thing after another until something fails: the answers, and the error. -/
def Lexer.answer : Lexer → List Request → List Answer × Option ParseError
  | _, [] => ([], none)
  | l, .peek :: requests =>
    match l.peek with
    | (.ok k, l) =>
      let later := l.answer requests
      (.peeked k :: later.1, later.2)
    | (.error e, _) => ([], some e)
  | l, .next :: requests =>
    match l.next with
    | (.ok t, l) =>
      let later := l.answer requests
      (.taken t :: later.1, later.2)
    | (.error e, _) => ([], some e)

def Lexer.answerNexts (l : Lexer) (n : Nat) : List Answer × Option ParseError :=
  l.answer (List.replicate n .next)

/-- Answers that a lexer gives which reads each token when it is looked at or taken, and no token twice. -/
inductive Agrees : Lexer → List Answer → Option ParseError → Prop
  | stop {l} : Agrees l [] none
  | failed {l e} : l.read.1 = .error e → Agrees l [] (some e)
  | peeked {l t after as f} : l.read = (.ok t, after) → Agrees l as f → Agrees l (.peeked t.kind :: as) f
  | taken {l t after as f} : l.read = (.ok t, after) → Agrees after as f → Agrees l (.taken t :: as) f

/-- A lexer has read what another one has, and perhaps looks at the next token. -/
inductive Ahead : Lexer → Lexer → Prop
  | level {l} : l.peeked = none → Ahead l l
  | looking {l t after} : l.read = (.ok t, after) → Ahead l { after with peeked := some t }

section

variable {l l' after : Lexer} {t : Token} {k : TokenKind} {e : ParseError} {requests : List Request}
  {a : Answer} {as before : List Answer} {f : Option ParseError}

/-! ### One request -/

theorem peeked_read (l : Lexer) : l.read.2.peeked = none := by
  unfold Lexer.read
  dsimp only
  split <;> rfl

theorem peeked_of_read (h : l.read = (.ok t, after)) : after.peeked = none := by
  have hpeeked := peeked_read l
  rwa [h] at hpeeked

theorem next_of_level (h : l.peeked = none) : l.next = l.read := by
  rw [Lexer.next, h]

theorem Ahead.next (h : Ahead l l') (hl : l'.next = (.ok t, after)) : l.read = (.ok t, after) := by
  cases h with
  | level hp => rwa [next_of_level hp] at hl
  | looking hr =>
    have hp := peeked_of_read hr
    cases hl
    rw [hr, ← hp]

theorem Ahead.next_error (h : Ahead l l') (hl : l'.next = (.error e, after)) : l.read.1 = .error e := by
  cases h with
  | level hp => rw [← next_of_level hp, hl]
  | looking => cases hl

theorem Ahead.peek (h : Ahead l l') (hl : l'.peek = (.ok k, after)) :
    ∃ t after', l.read = (.ok t, after') ∧ t.kind = k ∧ Ahead l after := by
  cases h with
  | level hp =>
    rw [Lexer.peek, hp] at hl
    dsimp only at hl
    split at hl
    · next t after' hr =>
      cases hl
      exact ⟨t, after', hr, rfl, .looking hr⟩
    · cases hl
  | looking hr =>
    cases hl
    exact ⟨_, _, hr, rfl, .looking hr⟩

theorem Ahead.peek_error (h : Ahead l l') (hl : l'.peek = (.error e, after)) : l.read.1 = .error e := by
  cases h with
  | level hp =>
    rw [Lexer.peek, hp] at hl
    dsimp only at hl
    split at hl
    · cases hl
    · next hr =>
      cases hl
      rw [hr]
  | looking => cases hl

/-! ### One request after another -/

theorem agrees_answer (h : Ahead l l') (requests : List Request) :
    Agrees l (l'.answer requests).1 (l'.answer requests).2 := by
  induction requests generalizing l l' with
  | nil => exact .stop
  | cons c requests ih =>
    cases c with
    | peek =>
      rw [Lexer.answer]
      split
      · next hl =>
        obtain ⟨t, after, hr, rfl, hahead⟩ := h.peek hl
        exact .peeked hr (ih hahead)
      · next hl => exact .failed (h.peek_error hl)
    | next =>
      rw [Lexer.answer]
      split
      · next hl =>
        have hr := h.next hl
        exact .taken hr (ih (.level (peeked_of_read hr)))
      · next hl => exact .failed (h.next_error hl)

/-- Every request is answered up to the one that fails. -/
theorem exists_unanswered (l : Lexer) (requests : List Request) :
    ∃ rest, requests = (l.answer requests).1.map Answer.request ++ rest ∧
      ((l.answer requests).2 = none ↔ rest = []) := by
  induction requests generalizing l with
  | nil => exact ⟨[], rfl, by simp [Lexer.answer]⟩
  | cons c requests ih =>
    cases c with
    | peek | next =>
      rw [Lexer.answer]
      split
      · next l' _ =>
        obtain ⟨rest, hrequests, hrest⟩ := ih l'
        exact ⟨rest, congrArg (_ :: ·) hrequests, hrest⟩
      · exact ⟨_ :: requests, rfl, by simp⟩

theorem answer_next (hl : l.peeked = none) (hr : l.read = (.ok t, after)) (requests : List Request) :
    l.answer (.next :: requests) = (.taken t :: (after.answer requests).1, (after.answer requests).2) := by
  rw [Lexer.answer, next_of_level hl, hr]

theorem answer_next_error (hl : l.peeked = none) (hr : l.read.1 = .error e) (requests : List Request) :
    l.answer (.next :: requests) = ([], some e) := by
  rcases hread : l.read with ⟨_ | _, after⟩ <;> rw [hread] at hr <;> cases hr
  rw [Lexer.answer, next_of_level hl, hread]

/-- After a failure nothing is asked any more. -/
theorem answer_append (h : l.answer requests = (as, some e)) (more : List Request) :
    l.answer (requests ++ more) = (as, some e) := by
  induction requests generalizing l as with
  | nil => cases h
  | cons c requests ih =>
    cases c with
    | peek | next =>
      rw [Lexer.answer] at h
      rw [List.cons_append, Lexer.answer]
      split at h
      · next l' hl =>
        obtain ⟨has, hf⟩ := Prod.mk.inj h
        have hlater := ih (l := l') (Prod.ext rfl hf)
        simp only [hlater, ← has]
      · next hl => simpa only [hl] using h

/-- What is answered after some answers is answered by a lexer that has only taken the tokens among
them. -/
theorem Agrees.exists_level (hl : l.peeked = none) (h : Agrees l (before ++ as) f) :
    ∃ l', l'.peeked = none ∧ Agrees l' as f ∧ ∀ requests,
      l.answer (List.replicate (tokensTaken before).length .next ++ requests) =
        ((tokensTaken before).map .taken ++ (l'.answer requests).1, (l'.answer requests).2) := by
  induction before generalizing l with
  | nil => exact ⟨l, hl, h, fun requests => rfl⟩
  | cons a before ih =>
    cases h with
    | peeked hr h => exact ih hl h
    | taken hr h =>
      obtain ⟨l', hl', has, hanswer⟩ := ih (peeked_of_read hr) h
      refine ⟨l', hl', has, fun requests => ?_⟩
      simp only [tokensTaken, List.filterMap_cons, Answer.token?, List.length_cons, List.replicate_succ,
        List.cons_append] at hanswer ⊢
      rw [answer_next hl hr, hanswer]
      rfl

theorem Agrees.head?_tokensTaken (h : Agrees l as f) (hr : l.read = (.ok t, after)) :
    ∀ u ∈ (tokensTaken as).head?, u = t := by
  induction h with
  | stop | failed => simp [tokensTaken]
  | peeked _ _ ih => exact ih hr
  | taken hr' _ =>
    rw [hr] at hr'
    cases hr'
    simp [tokensTaken, Answer.token?]

theorem answerNexts_succ (l : Lexer) (n : Nat) :
    l.answerNexts (n + 1) = l.answer (List.replicate n .next ++ [.next]) := by
  rw [Lexer.answerNexts, List.replicate_succ']

theorem answerNexts_of_agrees (hl : l.peeked = none) (h : Agrees l as f) :
    l.answerNexts (tokensTaken as).length = ((tokensTaken as).map .taken, none) := by
  rw [← List.append_nil as] at h
  obtain ⟨l', _, _, hanswer⟩ := h.exists_level hl
  simpa [Lexer.answer, Lexer.answerNexts] using hanswer []

theorem Agrees.peeked_next (hl : l.peeked = none) (h : Agrees l (before ++ .peeked k :: as) f) :
    ∃ t, t.kind = k ∧ l.answerNexts ((tokensTaken before).length + 1) =
        ((tokensTaken before ++ [t]).map .taken, none) ∧ ∀ u ∈ (tokensTaken as).head?, u = t := by
  obtain ⟨l', hl', hrest, hanswer⟩ := h.exists_level hl
  cases hrest with
  | @peeked _ t after _ _ hr hlater =>
    refine ⟨t, rfl, ?_, hlater.head?_tokensTaken hr⟩
    rw [answerNexts_succ, hanswer, answer_next hl' hr]
    simp [Lexer.answer]

theorem Agrees.failed_next (hl : l.peeked = none) (h : Agrees l as (some e)) :
    l.answerNexts ((tokensTaken as).length + 1) = ((tokensTaken as).map .taken, some e) := by
  rw [← List.append_nil as] at h
  obtain ⟨l', hl', hrest, hanswer⟩ := h.exists_level hl
  cases hrest with
  | failed he => simpa [answerNexts_succ, answer_next_error hl' he] using hanswer [.next]

theorem failed_unique {ts us : List Token} {e' : ParseError}
    (h : l.answerNexts (ts.length + 1) = (ts.map .taken, some e))
    (h' : l.answerNexts (us.length + 1) = (us.map .taken, some e')) : ts = us ∧ e = e' := by
  have hsame : ∀ {ts us : List Token} {e e' : ParseError},
      l.answerNexts (ts.length + 1) = (ts.map .taken, some e) →
      l.answerNexts (us.length + 1) = (us.map .taken, some e') → ts.length ≤ us.length →
      ts = us ∧ e = e' := by
    intro ts us e e' h h' hle
    have hmore := answer_append h (List.replicate (us.length - ts.length) .next)
    have hcount : ts.length + 1 + (us.length - ts.length) = us.length + 1 := by omega
    rw [List.replicate_append_replicate, hcount] at hmore
    rw [Lexer.answerNexts, hmore] at h'
    obtain ⟨htokens, he⟩ := Prod.mk.inj h'
    exact ⟨(List.map_inj_right fun _ _ => Answer.taken.inj).1 htokens, Option.some.inj he⟩
  rcases Nat.le_total ts.length us.length with hle | hle
  · exact hsame h h' hle
  · obtain ⟨rfl, rfl⟩ := hsame h' h hle
    exact ⟨rfl, rfl⟩

theorem length_tokensTaken (as : List Answer) :
    (tokensTaken as).length = (as.map Answer.request).count .next := by
  induction as with
  | nil => rfl
  | cons a as ih =>
    cases a with
    | peeked k => simpa [tokensTaken, List.filterMap_cons, Answer.token?, Answer.request] using ih
    | taken t => simpa [tokensTaken, List.filterMap_cons, Answer.token?, Answer.request] using ih

/-- Requests that reach the place where tokens fail do fail there. -/
theorem Agrees.not_none {ts : List Token} (hl : l.peeked = none) (h : Agrees l (before ++ a :: as) none)
    (hlen : (tokensTaken before).length = ts.length) :
    l.answerNexts (ts.length + 1) ≠ (ts.map .taken, some e) := by
  intro he
  obtain ⟨l', hl', hrest, hanswer⟩ := h.exists_level hl
  obtain ⟨t, after, hr⟩ : ∃ t after, l'.read = (.ok t, after) := by
    cases hrest with
    | peeked hr => exact ⟨_, _, hr⟩
    | taken hr => exact ⟨_, _, hr⟩
  rw [answerNexts_succ, ← hlen, hanswer, answer_next hl' hr] at he
  have hfailure := congrArg Prod.snd he
  cases hfailure

end

/-- Peeking is invisible, up to the first request that fails. The tokens taken are those that taking tokens
alone gives. A token looked at has the kind of the next one taken. What fails, fails at the token at which
taking tokens alone fails, with the same error; and requests that get there do fail. -/
theorem peeking_invisible (text : String) (requests : List Request) (as : List Answer)
    (failure : Option ParseError) (h : (Lexer.ofText text).answer requests = (as, failure)) :
    (∃ rest, requests = as.map Answer.request ++ rest ∧ (failure = none ↔ rest = [])) ∧
    (Lexer.ofText text).answerNexts (tokensTaken as).length = ((tokensTaken as).map .taken, none) ∧
    (∀ before k after, as = before ++ .peeked k :: after → ∃ t, t.kind = k ∧
      (Lexer.ofText text).answerNexts ((tokensTaken before).length + 1) =
        ((tokensTaken before ++ [t]).map .taken, none) ∧
      ∀ u ∈ (tokensTaken after).head?, u = t) ∧
    (∀ e, failure = some e → (Lexer.ofText text).answerNexts ((tokensTaken as).length + 1) =
      ((tokensTaken as).map .taken, some e)) ∧
    ∀ ts e, (Lexer.ofText text).answerNexts (ts.length + 1) = (ts.map .taken, some e) →
      ∀ before c after, requests = before ++ c :: after → before.count .next = ts.length →
        failure = some e ∧ tokensTaken as = ts := by
  have hl : (Lexer.ofText text).peeked = none := rfl
  have hagrees := agrees_answer (.level hl) requests
  have hanswered := exists_unanswered (Lexer.ofText text) requests
  rw [h] at hagrees hanswered
  dsimp only at hagrees hanswered
  refine ⟨hanswered, answerNexts_of_agrees hl hagrees, fun before k after hsplit => ?_, fun e he => ?_,
    fun ts e hts before c after hsplit hcount => ?_⟩
  · rw [hsplit] at hagrees
    exact hagrees.peeked_next hl
  · rw [he] at hagrees
    exact hagrees.failed_next hl
  · cases failure with
    | some e' =>
      obtain ⟨rfl, rfl⟩ := failed_unique hts (hagrees.failed_next hl)
      exact ⟨rfl, rfl⟩
    | none =>
      -- every request is answered, the one that reaches the failure among them
      obtain ⟨rest, hrequests, hrest⟩ := hanswered
      rw [hrest.1 rfl, List.append_nil, hsplit] at hrequests
      obtain ⟨first, others, rfl, hfirst, hothers⟩ := List.map_eq_append_iff.1 hrequests.symm
      obtain ⟨a, later, rfl, _, _⟩ := List.map_eq_cons_iff.1 hothers
      have hlen : (tokensTaken first).length = ts.length := by
        rw [length_tokensTaken, hfirst, hcount]
      exact absurd hts (hagrees.not_none hl hlen)

/-- A minus that is looked at twice, and a number that is too large. -/
theorem peeking_invisible_too_large :
    (Lexer.ofText "x-4294967296").answer [.next, .peek, .peek, .next, .peek] =
      ([.taken ⟨.name "x", ⟨1, 1⟩⟩, .peeked (.binary .subtract), .peeked (.binary .subtract),
        .taken ⟨.binary .subtract, ⟨1, 2⟩⟩], some ⟨.integerOutOfRange "4294967296", ⟨1, 3⟩⟩) ∧
    (Lexer.ofText "x-4294967296").answerNexts 3 =
      ([.taken ⟨.name "x", ⟨1, 1⟩⟩, .taken ⟨.binary .subtract, ⟨1, 2⟩⟩],
        some ⟨.integerOutOfRange "4294967296", ⟨1, 3⟩⟩) := by
  have h : (Lexer.ofText "x-4294967296").answer [.next, .peek, .peek, .next, .peek] =
      ([.taken ⟨.name "x", ⟨1, 1⟩⟩, .peeked (.binary .subtract), .peeked (.binary .subtract),
        .taken ⟨.binary .subtract, ⟨1, 2⟩⟩], some ⟨.integerOutOfRange "4294967296", ⟨1, 3⟩⟩) := by
    decide +kernel
  exact ⟨h, (peeking_invisible _ _ _ _ h).2.2.2.1 _ rfl⟩

end WordMachine.Source
