import WordMachine.Proofs.Compiler.Bodies
import WordMachine.Proofs.Source.Interpreter

/-!
# Programs that have a meaning

A program that is compiled and has no pointers in it never comes to where its run has no meaning: every
function that it calls is there, and only variables are assigned to.
-/

namespace WordMachine.Source

namespace Run

variable {α β : Type}

/-- The run has a meaning, whatever it reads. -/
def Meaningful (r : Run α) : Prop := ∀ q, (r q).1 ≠ .error .meaningless

theorem meaningful_result (a : α) : (result a).Meaningful := fun _ h => nomatch h

theorem meaningful_abort {e : Abort} (h : e ≠ .meaningless) : (abort e : Run α).Meaningful :=
  fun _ he => h (Except.error.inj he)

theorem meaningful_demand {e : Abort} (h : e ≠ .meaningless) (a : Option α) :
    (demand e a).Meaningful := by
  cases a with
  | none => exact meaningful_abort h
  | some a => exact meaningful_result a

theorem meaningful_readWord : readWord.Meaningful := by
  rintro ⟨_ | ⟨w, input⟩, output⟩ h
  · cases h
  · cases h

theorem meaningful_writeWord (w : Word) : (writeWord w).Meaningful := fun _ h => nomatch h

theorem Meaningful.bind {r : Run α} {k : α → Run β} (h : r.Meaningful)
    (hk : ∀ a q q₁, r q = (.ok a, q₁) → (k a).Meaningful) : (r >>= k).Meaningful := by
  intro q hq
  have hq : (andThen r k q).1 = .error .meaningless := hq
  simp only [andThen] at hq
  split at hq
  next a q₁ hr => exact hk a q q₁ hr q₁ hq
  next e q₁ hr =>
    apply h q
    rw [hr, Except.error.inj hq]

theorem Meaningful.pushed {r : Run α} (h : r.Meaningful) (n : Nat) : (pushed n r).Meaningful := h

theorem Meaningful.reserved {r : Run α} (h : r.Meaningful) (n : Nat) : (reserved n r).Meaningful := h

theorem Meaningful.then {r : Run α} {k : α → Run β} (h : r.Meaningful)
    (hk : ∀ a, (k a).Meaningful) : (r >>= k).Meaningful := h.bind fun a _ _ _ => hk a

end Run

open Run

/-! ### Expressions -/

mutual

def Expr.PointerFree : Expr → Prop
  | .int _ => True
  | .name _ => True
  | .unary .dereference _ => False
  | .unary .addressOf _ => False
  | .unary .negate e => e.PointerFree
  | .unary .bitNot e => e.PointerFree
  | .unary .logicalNot e => e.PointerFree
  | .binary _ left right => left.PointerFree ∧ right.PointerFree
  | .call _ arguments => Expr.AllPointerFree arguments

def Expr.AllPointerFree : List Expr → Prop
  | [] => True
  | e :: es => e.PointerFree ∧ Expr.AllPointerFree es

end

/-- Calls of the function have a meaning, with as many arguments as it takes. -/
def Answerable (call : Signature → List Word → Run (Option Word)) (g : Signature) : Prop :=
  ∀ args, args.length = g.arity → (call g args).Meaningful

section

variable {call : Signature → List Word → Run (Option Word)}

mutual

theorem Expr.meaningful_value (e : Expr) (env : Env) (hf : e.PointerFree)
    (hc : ∀ g ∈ e.calls, Answerable call g) : (e.value call env).Meaningful := by
  match e with
  | .int w => exact meaningful_result w
  | .name x => exact meaningful_demand (by decide) (env x)
  | .binary op left right =>
    have hr := right.meaningful_value env hf.2 fun g hg => hc g (List.mem_append_right _ hg)
    have hl := left.meaningful_value env hf.1 fun g hg => hc g (List.mem_append_left _ hg)
    exact hr.then fun y => (hl.pushed 1).then fun x => meaningful_demand (by decide) (op.apply x y)
  | .unary .negate e => exact (e.meaningful_value env hf hc).then fun v => meaningful_result _
  | .unary .bitNot e => exact (e.meaningful_value env hf hc).then fun v => meaningful_result _
  | .unary .logicalNot e => exact (e.meaningful_value env hf hc).then fun v => meaningful_result _
  | .unary .dereference e => exact hf.elim
  | .unary .addressOf e => exact hf.elim
  | .call callee es =>
    have hes := Expr.meaningful_values es env hf fun g hg => hc g (List.mem_append_left _ hg)
    have hg := hc ⟨callee, es.length⟩ (List.mem_append_right _ (List.mem_singleton.2 rfl))
    exact hes.bind fun ws q q₁ hws => ((hg ws (Expr.length_of_values hws)).pushed _).then fun v =>
      meaningful_demand (by decide) v

theorem Expr.meaningful_values (es : List Expr) (env : Env) (hf : Expr.AllPointerFree es)
    (hc : ∀ g ∈ Expr.allCalls es, Answerable call g) : (Expr.values call es env).Meaningful := by
  match es with
  | [] => exact meaningful_result _
  | e :: es =>
    have he := e.meaningful_value env hf.1 fun g hg => hc g (List.mem_append_left _ hg)
    have hes := Expr.meaningful_values es env hf.2 fun g hg => hc g (List.mem_append_right _ hg)
    exact he.then fun w => (hes.pushed 1).then fun ws => meaningful_result _

end

theorem Expr.meaningful_effects (e : Expr) (env : Env) (hf : e.PointerFree)
    (hc : ∀ g ∈ e.calls, Answerable call g) : (e.effects call env).Meaningful := by
  match e with
  | .int _ => exact meaningful_result ()
  | .name _ => exact meaningful_result ()
  | .binary op left right =>
    have hr := right.meaningful_effects env hf.2 fun g hg => hc g (List.mem_append_right _ hg)
    have hl := left.meaningful_effects env hf.1 fun g hg => hc g (List.mem_append_left _ hg)
    exact hr.then fun _ => hl
  | .unary .negate e => exact e.meaningful_effects env hf hc
  | .unary .bitNot e => exact e.meaningful_effects env hf hc
  | .unary .logicalNot e => exact e.meaningful_effects env hf hc
  | .unary .dereference e => exact hf.elim
  | .unary .addressOf e => exact hf.elim
  | .call callee es =>
    have hes := Expr.meaningful_values es env hf fun g hg => hc g (List.mem_append_left _ hg)
    have hg := hc ⟨callee, es.length⟩ (List.mem_append_right _ (List.mem_singleton.2 rfl))
    exact hes.bind fun ws q q₁ hws => ((hg ws (Expr.length_of_values hws)).pushed _).then fun v =>
      meaningful_result ()

end

/-! ### Statements -/

theorem meaningful_loop {test : Env → Run Word} {body : Env → Run Flow} {step : Env → Run Env}
    (ht : ∀ env, (test env).Meaningful) (hb : ∀ env, (body env).Meaningful)
    (hs : ∀ env, (step env).Meaningful) (fuel : Nat) (env : Env) :
    (loop test body step fuel env).Meaningful := by
  induction fuel generalizing env with
  | zero => exact meaningful_abort (by decide)
  | succ fuel ih =>
    rw [loop]
    refine (ht env).then fun v => ?_
    split
    · exact meaningful_result _
    · refine (hb env).then fun flow => ?_
      cases flow with
      | next env => exact (hs env).then ih
      | continued env => exact (hs env).then ih
      | broke env => exact meaningful_result _
      | returned v => exact meaningful_result _

end WordMachine.Source

namespace WordMachine.Compiler

open Assembly Source Run

variable {call : Signature → List Word → Run (Option Word)} {l : Option Loop} {f : Frame}
  {code : Code} {n n₁ fuel : Nat} {e : Expr} {es es' : List Expr}

def Sound (call : Signature → List Word → Run (Option Word)) (es : List Expr) : Prop :=
  Expr.AllPointerFree es ∧ ∀ g ∈ Expr.allCalls es, Answerable call g

theorem sound_cons : Sound call (e :: es) ↔
    (e.PointerFree ∧ ∀ g ∈ e.calls, Answerable call g) ∧ Sound call es := by
  simp only [Sound, Expr.AllPointerFree, Expr.allCalls, List.forall_mem_append]
  exact and_and_and_comm

theorem sound_append : Sound call (es ++ es') ↔ Sound call es ∧ Sound call es' := by
  induction es with
  | nil => simp [Sound, Expr.AllPointerFree, Expr.allCalls]
  | cons e es ih => rw [List.cons_append, sound_cons, sound_cons, ih, ← and_assoc]

theorem Sound.meaningful_value (h : Sound call (e :: es)) (env : Env) :
    (e.value call env).Meaningful :=
  e.meaningful_value env (sound_cons.1 h).1.1 (sound_cons.1 h).1.2

theorem Sound.tail (h : Sound call (e :: es)) : Sound call es := (sound_cons.1 h).2

theorem Sound.eq_name {out : Option Register} (h : Sound call (e :: es))
    (hp : Emits l f (.place e out) n code n₁) : ∃ x, e = .name x := by
  cases hp with
  | unusedPlace => exact ⟨_, rfl⟩
  | namePlace => exact ⟨_, rfl⟩
  | pointer => exact h.1.1.elim

mutual

theorem meaningful_run (s : Stmt) (env : Env) {l : Option Loop} {f : Frame} {n n₁ : Nat} {code : Code}
    (h : Emits l f (.statement s) n code n₁) (hs : Sound call s.expressions) :
    (s.run call fuel env).Meaningful := by
  match s, h with
  | .ifElse condition body [], .ifOnly _ hbody =>
    obtain ⟨hb, _⟩ := sound_append.1 hs.tail
    refine (hs.meaningful_value env).then fun v => ?_
    split
    · exact meaningful_result _
    · exact meaningful_runAll body env hbody hb
  | .ifElse condition body (t :: ts), .ifElse _ hbody helse =>
    obtain ⟨hb, ht⟩ := sound_append.1 hs.tail
    refine (hs.meaningful_value env).then fun v => ?_
    split
    · exact meaningful_runAll (t :: ts) env helse ht
    · exact meaningful_runAll body env hbody hb
  | .whileDo condition body, .whileDo _ hbody =>
    exact meaningful_loop hs.meaningful_value (fun env => meaningful_runAll body env hbody hs.tail)
      meaningful_result fuel env
  | .forDo counter start condition step body, .forDo hcounter _ _ hbody _ =>
    obtain ⟨x, rfl⟩ := hs.eq_name hcounter
    have hstart := hs.tail
    have hcondition := hstart.tail
    have hstep := hcondition.tail
    refine Meaningful.pushed ((hstart.meaningful_value env).then fun v => ?_) 1
    refine meaningful_loop hcondition.meaningful_value
      (fun env => meaningful_runAll body env hbody hstep.tail) (fun env => ?_) fuel _
    exact (hstep.meaningful_value env).then fun d =>
      (meaningful_demand (by decide) (env x)).then fun w => meaningful_result _
  | .ret none, _ => exact meaningful_result _
  | .ret (some e), _ => exact (hs.meaningful_value env).then fun v => meaningful_result _
  | .breakLoop, _ => exact meaningful_result _
  | .continueLoop, _ => exact meaningful_result _
  | .assign target e, .assign htarget _ =>
    obtain ⟨x, rfl⟩ := hs.eq_name htarget
    exact ((hs.tail.meaningful_value env).pushed 1).then fun v => meaningful_result _
  | .exec e, _ =>
    have he := e.meaningful_effects env (sound_cons.1 hs).1.1 (sound_cons.1 hs).1.2
    exact he.then fun _ => meaningful_result _

theorem meaningful_runAll (ss : List Stmt) (env : Env) {l : Option Loop} {f : Frame} {n n₁ : Nat}
    {code : Code} (h : Emits l f (.block ss) n code n₁) (hs : Sound call (Stmt.allExpressions ss)) :
    (Stmt.runAll call fuel ss env).Meaningful := by
  match ss, h with
  | [], _ => exact meaningful_result _
  | s :: ss, .cons hfirst hrest =>
    obtain ⟨hs, hss⟩ := sound_append.1 hs
    refine (meaningful_run s env hfirst hs).then fun flow => ?_
    cases flow with
    | next env => exact meaningful_runAll ss env hrest hss
    | broke env | continued env | returned v => exact meaningful_result _

end

/-! ### Programs -/

theorem meaningful_call {fs : List Function} {codes : List Code} {labels : Labels}
    {program : List UInt8} (h : Linked fs codes labels program)
    (hfree : ∀ f ∈ fs, Expr.AllPointerFree (Stmt.allExpressions f.body)) (fuel : Nat) {g : Signature}
    (hg : g ∈ defined fs) : Answerable (Source.call fs fuel) g := by
  induction fuel generalizing g with
  | zero => exact fun args _ => meaningful_abort (by decide)
  | succ fuel ih =>
    intro args hargs
    rw [Source.call]
    split
    next => exact meaningful_readWord.then fun w => meaningful_result _
    next hr =>
    split
    next hw =>
      subst hw
      obtain ⟨w, rfl⟩ := List.length_eq_one_iff.1 hargs
      exact (meaningful_writeWord w).then fun _ => meaningful_result _
    next hw =>
    split
    next hnone =>
      have hb : g ∉ Signature.builtins := by simp [Signature.builtins, hr, hw]
      obtain ⟨f, hf, rfl⟩ := List.mem_map.1 ((List.mem_append.1 hg).resolve_left hb)
      have hne := List.find?_eq_none.1 hnone f hf
      simp at hne
    next f hf =>
      have hmem := List.mem_of_find?_eq_some hf
      obtain ⟨lines, _, n, n₁, hfun⟩ := h.own hmem
      obtain ⟨body, hE, _⟩ := emitsFunction_of_function hfun
      have hcalls (g : Signature) (hg : g ∈ Expr.allCalls (Stmt.allExpressions f.body)) :
          Answerable (Source.call fs fuel) g :=
        ih (callees_defined_of_check h.check hmem (mem_firsts.2 hg))
      refine ((meaningful_runAll f.body _ hE ⟨hfree f hmem, hcalls⟩).reserved _).then fun flow => ?_
      cases flow with
      | next env | broke env | continued env => exact meaningful_result _
      | returned v => exact meaningful_result _

end WordMachine.Compiler
