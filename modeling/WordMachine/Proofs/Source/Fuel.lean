import WordMachine.Proofs.Source.Interpreter

/-!
# More fuel

A run that has not run out of fuel is the same with more fuel, so what a program does has nothing to do
with the fuel that it is given (`Means`).
-/

namespace WordMachine.Source

open Run

namespace Run

variable {α β : Type}

/-- The other run is the same, as long as this one does not run out of fuel. -/
def Refines (r r' : Run α) : Prop :=
  ∀ q, (r q).1 ≠ .error .exhausted → r' q = r q ∧ r'.words q = r.words q

theorem Refines.refl (r : Run α) : r.Refines r := fun _ _ => ⟨rfl, rfl⟩

theorem refines_exhausted (r : Run α) : (abort .exhausted).Refines r := fun _ h => absurd rfl h

theorem Refines.bind {r r' : Run α} {k k' : α → Run β} (h : r.Refines r')
    (hk : ∀ a, (k a).Refines (k' a)) : (r >>= k).Refines (r' >>= k') := by
  intro q hq
  have hq : (andThen r k q).1 ≠ .error .exhausted := hq
  show andThen r' k' q = andThen r k q ∧ (andThen r' k').words q = (andThen r k).words q
  rcases hr : r q with ⟨e | a, q₁⟩
  · have he : e ≠ .exhausted := fun he => hq (by simp only [andThen, hr, he])
    obtain ⟨hsame, hwords⟩ := h q (by rw [hr]; exact fun heq => he (Except.error.inj heq))
    rw [hr] at hsame
    simp only [andThen, hr, hsame, hwords, and_self]
  · obtain ⟨hsame, hwords⟩ := h q (by rw [hr]; simp)
    rw [hr] at hsame
    simp only [andThen, hr] at hq
    obtain ⟨hsame', hwords'⟩ := hk a q₁ hq
    simp only [andThen, hr, hsame, hwords, hsame', hwords', and_self]

theorem Refines.pushed {r r' : Run α} (h : r.Refines r') (n : Nat) : (pushed n r).Refines (pushed n r') :=
  fun q hq => ⟨(h q hq).1, congrArg (n + ·) (h q hq).2⟩

theorem Refines.reserved {r r' : Run α} (h : r.Refines r') (n : Nat) :
    (reserved n r).Refines (reserved n r') :=
  fun q hq => ⟨(h q hq).1, congrArg (fun k => if k = 0 then 0 else n + k) (h q hq).2⟩

end Run

/-! ### Expressions -/

section

variable {call call' : Signature → List Word → Run (Option Word)}

mutual

theorem Expr.refines_value (hc : ∀ g args, (call g args).Refines (call' g args))
    (e : Expr) (env : Env) : (e.value call env).Refines (e.value call' env) := by
  match e with
  | .int _ => exact .refl _
  | .name _ => exact .refl _
  | .binary op left right =>
    refine (right.refines_value hc env).bind fun y => ?_
    exact ((left.refines_value hc env).pushed 1).bind fun x => .refl _
  | .unary .negate e => exact (e.refines_value hc env).bind fun v => .refl _
  | .unary .bitNot e => exact (e.refines_value hc env).bind fun v => .refl _
  | .unary .logicalNot e => exact (e.refines_value hc env).bind fun v => .refl _
  | .unary .dereference _ => exact .refl _
  | .unary .addressOf _ => exact .refl _
  | .call callee es =>
    refine (Expr.refines_values hc es env).bind fun args => ?_
    exact ((hc _ args).pushed _).bind fun v => .refl _

theorem Expr.refines_values (hc : ∀ g args, (call g args).Refines (call' g args))
    (es : List Expr) (env : Env) : (Expr.values call es env).Refines (Expr.values call' es env) := by
  match es with
  | [] => exact .refl _
  | e :: es =>
    refine (e.refines_value hc env).bind fun w => ?_
    exact ((Expr.refines_values hc es env).pushed 1).bind fun ws => .refl _

end

theorem Expr.refines_effects (hc : ∀ g args, (call g args).Refines (call' g args))
    (e : Expr) (env : Env) : (e.effects call env).Refines (e.effects call' env) := by
  match e with
  | .int _ => exact .refl _
  | .name _ => exact .refl _
  | .binary op left right =>
    exact (right.refines_effects hc env).bind fun _ => left.refines_effects hc env
  | .unary .negate e => exact e.refines_effects hc env
  | .unary .bitNot e => exact e.refines_effects hc env
  | .unary .logicalNot e => exact e.refines_effects hc env
  | .unary .dereference _ => exact .refl _
  | .unary .addressOf _ => exact .refl _
  | .call callee es =>
    refine (Expr.refines_values hc es env).bind fun args => ?_
    exact ((hc _ args).pushed _).bind fun v => .refl _

end

/-! ### Statements -/

theorem refines_loop {test test' : Env → Run Word} {body body' : Env → Run Flow}
    {step step' : Env → Run Env} (ht : ∀ env, (test env).Refines (test' env))
    (hb : ∀ env, (body env).Refines (body' env)) (hs : ∀ env, (step env).Refines (step' env))
    {fuel fuel' : Nat} (hf : fuel ≤ fuel') (env : Env) :
    (loop test body step fuel env).Refines (loop test' body' step' fuel' env) := by
  induction fuel generalizing fuel' env with
  | zero => exact refines_exhausted _
  | succ fuel ih =>
    obtain ⟨fuel', rfl⟩ : ∃ n, fuel' = n + 1 := ⟨fuel' - 1, by omega⟩
    rw [loop, loop]
    refine (ht env).bind fun v => ?_
    split
    · exact .refl _
    · refine (hb env).bind fun flow => ?_
      cases flow with
      | next env => exact (hs env).bind fun env => ih (by omega) env
      | continued env => exact (hs env).bind fun env => ih (by omega) env
      | broke env => exact .refl _
      | returned v => exact .refl _

section

variable {call call' : Signature → List Word → Run (Option Word)} {fuel fuel' : Nat}

mutual

theorem Stmt.refines_run (hc : ∀ g args, (call g args).Refines (call' g args))
    (hf : fuel ≤ fuel') (s : Stmt) (env : Env) :
    (s.run call fuel env).Refines (s.run call' fuel' env) := by
  match s with
  | .ifElse condition body otherwise =>
    rw [Stmt.run, Stmt.run]
    refine (condition.refines_value hc env).bind fun v => ?_
    split
    · exact Stmt.refines_runAll hc hf otherwise env
    · exact Stmt.refines_runAll hc hf body env
  | .whileDo condition body =>
    rw [Stmt.run, Stmt.run]
    exact refines_loop (condition.refines_value hc) (Stmt.refines_runAll hc hf body) (fun _ => .refl _) hf env
  | .forDo counter start condition step body =>
    match counter with
    | .name x =>
      refine Refines.pushed ((start.refines_value hc env).bind fun v => ?_) 1
      refine refines_loop (condition.refines_value hc) (Stmt.refines_runAll hc hf body) (fun env => ?_) hf _
      exact (step.refines_value hc env).bind fun d => .refl _
    | .int _ | .unary .. | .binary .. | .call .. => exact .refl _
  | .ret none => exact .refl _
  | .ret (some e) => exact (e.refines_value hc env).bind fun v => .refl _
  | .breakLoop => exact .refl _
  | .continueLoop => exact .refl _
  | .assign target e =>
    match target with
    | .name x => exact ((e.refines_value hc env).pushed 1).bind fun v => .refl _
    | .int _ | .unary .. | .binary .. | .call .. => exact .refl _
  | .exec e => exact (e.refines_effects hc env).bind fun _ => .refl _

theorem Stmt.refines_runAll (hc : ∀ g args, (call g args).Refines (call' g args))
    (hf : fuel ≤ fuel') (ss : List Stmt) (env : Env) :
    (Stmt.runAll call fuel ss env).Refines (Stmt.runAll call' fuel' ss env) := by
  match ss with
  | [] => exact .refl _
  | s :: ss =>
    refine (s.refines_run hc hf env).bind fun flow => ?_
    cases flow with
    | next env => exact Stmt.refines_runAll hc hf ss env
    | broke env | continued env | returned v => exact .refl _

end

end

/-! ### Programs -/

theorem refines_call (fs : List Function) {fuel fuel' : Nat} (hf : fuel ≤ fuel') (g : Signature)
    (args : List Word) : (call fs fuel g args).Refines (call fs fuel' g args) := by
  induction fuel generalizing fuel' g args with
  | zero => exact refines_exhausted _
  | succ fuel ih =>
    obtain ⟨fuel', rfl⟩ : ∃ n, fuel' = n + 1 := ⟨fuel' - 1, by omega⟩
    have hle : fuel ≤ fuel' := by omega
    rw [call, call]
    split
    · exact .refl _
    · split
      · exact .refl _
      · split
        · exact .refl _
        · exact ((Stmt.refines_runAll (ih hle) hle _ _).reserved _).bind fun flow => .refl _

/-- With enough fuel, this is the outcome of a program and the number of words that it takes on the
stack. -/
structure Means (fs : List Function) (q : WordQueue) (outcome : Except Abort (Option Word) × WordQueue)
    (words : Nat) : Prop where
  finished : outcome.1 ≠ .error .exhausted
  eventually : ∃ fuel, interpret fs fuel q = outcome ∧ (interpret fs fuel).words q = words

/-- A program has one meaning. -/
theorem Means.unique {fs : List Function} {q : WordQueue}
    {outcome outcome' : Except Abort (Option Word) × WordQueue} {words words' : Nat}
    (h : Means fs q outcome words) (h' : Means fs q outcome' words') :
    outcome = outcome' ∧ words = words' := by
  obtain ⟨hf, fuel, rfl, rfl⟩ := h
  obtain ⟨hf', fuel', rfl, rfl⟩ := h'
  obtain ⟨hmax, hwords⟩ := (refines_call fs (Nat.le_max_left fuel fuel') .main []).pushed 1 q hf
  obtain ⟨hmax', hwords'⟩ := (refines_call fs (Nat.le_max_right fuel fuel') .main []).pushed 1 q hf'
  exact ⟨hmax.symm.trans hmax', hwords.symm.trans hwords'⟩

end WordMachine.Source
