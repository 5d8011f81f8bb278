import WordMachine.Proofs.Compiler.Outcome
import WordMachine.Proofs.Source.Renaming

/-!
# Compiling renamed functions

A generator sees the names of variables only when it asks the frame for their places, and the places are
those of the names in the lists of the frame. Where different variables have different names before and
after, the code of a renamed body in the renamed frame is that of the body, and so is what goes wrong.
-/

namespace WordMachine.Compiler

open Source Generator

/-! ### Frames -/

def Frame.rename (r : String → String) (f : Frame) : Frame :=
  ⟨f.parameters.map r, f.locals.map r, f.pushed⟩

def Context.rename (r : String → String) (c : Context) : Context :=
  { c with frame := c.frame.rename r }

def Frame.Of (g : Frame) (f : Function) : Prop := g.parameters = f.parameters ∧ g.locals = f.locals

section

variable {r : String → String} {f : Function} {s : Set String} {x : String} {xs : List String}

theorem lastIndex?_map (h : Set.InjOn r s) (hx : x ∈ s) (hxs : ∀ y ∈ xs, y ∈ s) :
    lastIndex? (r x) (xs.map r) = lastIndex? x xs := by
  induction xs with
  | nil => rfl
  | cons y ys ih =>
    obtain ⟨hy, hys⟩ := List.forall_mem_cons.1 hxs
    have hyx : r y = r x ↔ y = x := h.eq_iff hy hx
    rw [List.map_cons, lastIndex?, lastIndex?, ih hys]
    simp only [hyx]

theorem offset?_rename {g : Frame} (hr : Set.InjOn r { x | f.Owns x }) (hg : g.Of f) (hx : f.Owns x) :
    (g.rename r).offset? (r x) = g.offset? x := by
  have hlocals : lastIndex? (r x) (g.locals.map r) = lastIndex? x g.locals :=
    lastIndex?_map hr hx fun y hy => .inr (hg.2 ▸ hy)
  have hparameters : lastIndex? (r x) (g.parameters.map r) = lastIndex? x g.parameters :=
    lastIndex?_map hr hx fun y hy => .inl (hg.1 ▸ hy)
  simp only [Frame.offset?, Frame.rename, hlocals, hparameters, List.length_map]

theorem pop?_rename {g : Frame} {n : Nat} :
    (g.rename r).pop? n = (g.pop? n).map (Frame.rename r) := by
  have hpushed : (g.rename r).pushed = g.pushed := rfl
  rw [Frame.pop?, Frame.pop?, hpushed]
  split
  · rfl
  · rfl

end

/-! ### Generators -/

/-- In the frames of a function, a generator does the same as another one in the renamed frame, and
leaves a frame of the function. -/
structure Follows {α : Type} (r : String → String) (f : Function) (g g' : Generator α) : Prop where
  same : ∀ c : Context, c.frame.Of f → g' (c.rename r) = (g c).map fun p => (p.1, p.2.rename r)
  stays : ∀ (c : Context) a after, c.frame.Of f → g c = .ok (a, after) → after.frame.Of f

namespace Follows

variable {α β : Type} {r : String → String} {f : Function} {g g' : Generator α}
  {k k' : α → Generator β} {x : String} {a : α} {n : Nat}

theorem pure : Follows r f (pure a : Generator α) (pure a) where
  same _ _ := rfl
  stays c b after hc h := by
    cases h
    exact hc

theorem fail (e : Failure) : Follows r f (Generator.fail e : Generator α) (Generator.fail e) where
  same _ _ := rfl
  stays _ _ _ _ h := by cases h

theorem bind (hg : Follows r f g g') (hk : ∀ a, Follows r f (k a) (k' a)) :
    Follows r f (g >>= k) (g' >>= k') where
  same c hc := by
    change andThen g' k' (c.rename r) = (andThen g k c).map _
    rw [andThen, andThen, hg.same c hc]
    cases hgc : g c with
    | error e => rfl
    | ok p =>
      obtain ⟨a, after⟩ := p
      exact (hk a).same after (hg.stays c a after hc hgc)
  stays c b after hc h := by
    obtain ⟨a, between, ha, hb⟩ := bind_eq_ok.1 h
    exact (hk a).stays between b after (hg.stays c a between hc ha) hb

theorem freshId : Follows r f Generator.freshId Generator.freshId where
  same _ _ := rfl
  stays c b after hc h := by
    cases h
    exact hc

theorem loop : Follows r f Generator.loop Generator.loop where
  same _ _ := rfl
  stays c b after hc h := by
    cases h
    exact hc

theorem depth (h : Nat → α) : Follows r f (Generator.frame >>= fun g => Pure.pure (h g.depth))
    (Generator.frame >>= fun g => Pure.pure (h g.depth)) where
  same c _ := by
    have hdepth : (c.rename r).frame.depth = c.frame.depth := by
      simp only [Context.rename, Frame.rename, Frame.depth, List.length_map]
    change Except.ok (h (c.rename r).frame.depth, c.rename r) = _
    rw [hdepth]
    rfl
  stays c b after hc h := by
    cases h
    exact hc

theorem pushed (n : Nat) : Follows r f (Generator.pushed n) (Generator.pushed n) where
  same _ _ := rfl
  stays c b after hc h := by
    cases h
    exact hc

theorem popped (n : Nat) : Follows r f (Generator.popped n) (Generator.popped n) where
  same c _ := by
    have hpop : (c.rename r).frame.pop? n = (c.frame.pop? n).map (Frame.rename r) := pop?_rename
    simp only [Generator.popped, hpop]
    cases c.frame.pop? n with
    | none => rfl
    | some g => rfl
  stays c b after hc h := by
    simp only [Generator.popped, Frame.pop?] at h
    split at h
    · next frame hframe =>
      cases h
      split at hframe
      · cases hframe
        exact hc
      · cases hframe
    · cases h

theorem offset (hr : Set.InjOn r { x | f.Owns x }) (hx : f.Owns x) :
    Follows r f (Generator.offset x) (Generator.offset (r x)) where
  same c hc := by
    have hoffset : (c.rename r).frame.offset? (r x) = c.frame.offset? x := offset?_rename hr hc hx
    have hplace : (c.frame.offset? x).isSome ↔ x ∈ c.frame.locals ∨ x ∈ c.frame.parameters :=
      Frame.isSome_offset?_iff
    simp only [Generator.offset, hoffset]
    cases hn : c.frame.offset? x with
    | some n => rfl
    | none =>
      rw [hn, hc.1, hc.2] at hplace
      exact absurd (hplace.2 hx.symm) (by simp)
  stays c b after hc h := by
    simp only [Generator.offset] at h
    split at h
    · cases h
      exact hc
    · cases h

theorem inLoop {i : Loop} (hg : Follows r f g g') :
    Follows r f (Generator.inLoop i g) (Generator.inLoop i g') where
  same c hc := by
    have hsame := hg.same { c with loop := some i } hc
    have hcontext : { c.rename r with loop := some i } = Context.rename r { c with loop := some i } := rfl
    simp only [Generator.inLoop, hcontext, hsame]
    cases g { c with loop := some i } with
    | error e => rfl
    | ok p => rfl
  stays c b after hc h := by
    obtain ⟨d, hd, rfl⟩ := inLoop_eq_ok.1 h
    exact hg.stays { c with loop := some i } b d hc hd

theorem truthValue (jump : Label → Assembly.Line) (out : Register) :
    Follows r f (Compiler.truthValue jump out) (Compiler.truthValue jump out) :=
  freshId.bind fun _ => .pure

theorem combine (op : BinaryOp) (out other : Register) :
    Follows r f (Compiler.combine op out other) (Compiler.combine op out other) := by
  cases op with
  | equal | less | greater => exact (truthValue _ _).bind fun _ => .pure
  | _ => exact .pure

end Follows

/-! ### Bodies -/

section

variable {r : String → String} {f : Function}

def OwnsAll (f : Function) (xs : List String) : Prop := ∀ x ∈ xs, f.Owns x

theorem ownsAll_append {xs ys : List String} :
    OwnsAll f (xs ++ ys) ↔ OwnsAll f xs ∧ OwnsAll f ys := by
  simp only [OwnsAll, List.forall_mem_append]

mutual

theorem follows_expression (hr : Set.InjOn r { x | f.Owns x }) (e : Expr) (out : Option Register)
    (h : OwnsAll f e.variables) : Follows r f (expression e out) (expression (e.rename r) out) := by
  match e, out with
  | .int _, _ =>
    rw [Expr.rename, expression]
    exact .pure
  | .name _, none =>
    rw [Expr.rename, expression, expression]
    exact .pure
  | .name x, some out =>
    rw [Expr.rename, expression, expression]
    exact (Follows.offset hr (h x List.mem_cons_self)).bind fun n => .pure
  | .binary op left right, none =>
    obtain ⟨hleft, hright⟩ := ownsAll_append.1 h
    rw [Expr.rename, expression, expression]
    exact (follows_expression hr right none hright).bind fun second =>
      (follows_expression hr left none hleft).bind fun first => .pure
  | .binary op left right, some out =>
    obtain ⟨hleft, hright⟩ := ownsAll_append.1 h
    rw [Expr.rename, expression, expression]
    refine (follows_expression hr right (some out) hright).bind fun second => ?_
    refine (Follows.pushed 1).bind fun _ => ?_
    refine (follows_expression hr left (some out) hleft).bind fun first => ?_
    refine (Follows.popped 1).bind fun _ => ?_
    exact (Follows.combine op out out.adjacent).bind fun last => .pure
  | .unary .addressOf operand, out =>
    rw [Expr.rename, expression, expression]
    exact follows_address hr operand out h
  | .unary .negate operand, out | .unary .bitNot operand, out | .unary .dereference operand, out
  | .unary .logicalNot operand, none =>
    rw [Expr.rename, expression, expression]
    exact (follows_expression hr operand _ h).bind fun code => .pure
  | .unary .logicalNot operand, some out =>
    rw [Expr.rename, expression, expression]
    refine (follows_expression hr operand (some out) h).bind fun code => ?_
    exact (Follows.truthValue Code.jiz out).bind fun truth => .pure
  | .call callee es, out =>
    rw [Expr.rename, expression, expression, length_renameAll]
    refine (follows_pushArguments hr es _ h).bind fun code => ?_
    exact (Follows.popped es.length).bind fun _ => .pure

theorem follows_pushArguments (hr : Set.InjOn r { x | f.Owns x }) (es : List Expr) (scratch : Register)
    (h : OwnsAll f (Expr.allVariables es)) :
    Follows r f (pushArguments es scratch) (pushArguments (Expr.renameAll r es) scratch) := by
  match es with
  | [] =>
    rw [Expr.renameAll, pushArguments]
    exact .pure
  | e :: es =>
    obtain ⟨he, hes⟩ := ownsAll_append.1 h
    rw [Expr.renameAll, pushArguments, pushArguments]
    refine (follows_expression hr e (some scratch) he).bind fun first => ?_
    refine (Follows.pushed 1).bind fun _ => ?_
    exact (follows_pushArguments hr es scratch hes).bind fun rest => .pure

theorem follows_address (hr : Set.InjOn r { x | f.Owns x }) (e : Expr) (out : Option Register)
    (h : OwnsAll f e.variables) : Follows r f (address e out) (address (e.rename r) out) := by
  match e, out with
  | .name _, none =>
    rw [Expr.rename, address, address]
    exact .pure
  | .name x, some out =>
    rw [Expr.rename, address, address]
    exact (Follows.offset hr (h x List.mem_cons_self)).bind fun n => .pure
  | .unary .dereference operand, out =>
    rw [Expr.rename, address, address]
    exact follows_expression hr operand out h
  | .int _, _ | .binary _ _ _, _ | .call _ _, _ | .unary .negate _, _ | .unary .bitNot _, _
  | .unary .logicalNot _, _ | .unary .addressOf _, _ => exact .fail _

end

theorem ownsAll_cons {e : Expr} {es : List Expr} :
    OwnsAll f (Expr.allVariables (e :: es)) ↔
      OwnsAll f e.variables ∧ OwnsAll f (Expr.allVariables es) :=
  ownsAll_append

theorem ownsAll_allVariables_append {es es' : List Expr} :
    OwnsAll f (Expr.allVariables (es ++ es')) ↔
      OwnsAll f (Expr.allVariables es) ∧ OwnsAll f (Expr.allVariables es') := by
  rw [allVariables_append, ownsAll_append]

theorem isEmpty_renameAll (ss : List Stmt) : (Stmt.renameAll r ss).isEmpty = ss.isEmpty := by
  cases ss <;> rfl

mutual

theorem follows_statement (hr : Set.InjOn r { x | f.Owns x }) (s : Stmt)
    (h : OwnsAll f (Expr.allVariables s.expressions)) :
    Follows r f (statement s) (statement (s.rename r)) := by
  match s with
  | .ifElse condition body otherwise =>
    obtain ⟨hc, hrest⟩ := ownsAll_cons.1 h
    obtain ⟨hb, ho⟩ := ownsAll_allVariables_append.1 hrest
    rw [Stmt.rename, statement, statement, isEmpty_renameAll]
    refine Follows.freshId.bind fun id => (follows_expression hr condition _ hc).bind fun test => ?_
    refine (follows_block hr body hb).bind fun first => (follows_block hr otherwise ho).bind fun second => ?_
    split
    · exact .pure
    · exact .pure
  | .whileDo condition body =>
    obtain ⟨hc, hb⟩ := ownsAll_cons.1 h
    rw [Stmt.rename, statement, statement]
    refine Follows.freshId.bind fun id => (follows_expression hr condition _ hc).bind fun test => ?_
    exact (Follows.inLoop (follows_block hr body hb)).bind fun inner => .pure
  | .forDo counter start condition step body =>
    obtain ⟨hcounter, h⟩ := ownsAll_cons.1 h
    obtain ⟨hstart, h⟩ := ownsAll_cons.1 h
    obtain ⟨hcondition, h⟩ := ownsAll_cons.1 h
    obtain ⟨hstep, hbody⟩ := ownsAll_cons.1 h
    rw [Stmt.rename, statement, statement]
    refine Follows.freshId.bind fun id => (follows_address hr counter _ hcounter).bind fun place => ?_
    refine (Follows.pushed 1).bind fun _ => ?_
    refine (follows_expression hr start _ hstart).bind fun first => ?_
    refine (follows_expression hr condition _ hcondition).bind fun test => ?_
    refine (Follows.inLoop (follows_block hr body hbody)).bind fun inner => ?_
    refine (follows_expression hr step _ hstep).bind fun last => ?_
    exact (Follows.popped 1).bind fun _ => .pure
  | .ret none =>
    rw [Stmt.rename, Option.map_none, statement]
    exact .depth fun n => Code.release .result n ++ [Code.ret]
  | .ret (some value) =>
    rw [Stmt.rename, Option.map_some, statement, statement]
    refine (follows_expression hr value _ (ownsAll_cons.1 h).1).bind fun code => ?_
    exact .depth fun n => code ++ Code.release .result n ++ [Code.mov .result returnValue, Code.ret]
  | .breakLoop | .continueLoop =>
    rw [Stmt.rename, statement]
    refine Follows.loop.bind fun i => ?_
    cases i with
    | none => exact .fail _
    | some i => exact .pure
  | .assign target value =>
    obtain ⟨ht, h⟩ := ownsAll_cons.1 h
    rw [Stmt.rename, statement, statement]
    refine (follows_address hr target _ ht).bind fun place => (Follows.pushed 1).bind fun _ => ?_
    refine (follows_expression hr value _ (ownsAll_cons.1 h).1).bind fun code => ?_
    exact (Follows.popped 1).bind fun _ => .pure
  | .exec e =>
    rw [Stmt.rename, statement, statement]
    exact follows_expression hr e none (ownsAll_cons.1 h).1

theorem follows_block (hr : Set.InjOn r { x | f.Owns x }) (ss : List Stmt)
    (h : OwnsAll f (Expr.allVariables (Stmt.allExpressions ss))) :
    Follows r f (block ss) (block (Stmt.renameAll r ss)) := by
  match ss with
  | [] =>
    rw [Stmt.renameAll, block]
    exact .pure
  | s :: ss =>
    obtain ⟨hs, hss⟩ := ownsAll_allVariables_append.1 h
    rw [Stmt.renameAll, block, block]
    exact (follows_statement hr s hs).bind fun first => (follows_block hr ss hss).bind fun rest => .pure

end

end

/-! ### Programs -/

section

variable {r : String → String} {f : Function} {rs : List (String → String)} {fs : List Function}

theorem function_rename (hr : Set.InjOn r { x | f.Owns x }) (n : Nat) :
    function (f.rename r) n = function f n := by
  have hbody := (follows_block hr f.body fun x hx => Function.owns_of_mem_variables hx).same
    ⟨n, ⟨f.parameters, f.locals, 0⟩, none⟩ ⟨rfl, rfl⟩
  have hcontext : Context.rename r ⟨n, ⟨f.parameters, f.locals, 0⟩, none⟩ =
      ⟨n, ⟨(f.rename r).parameters, (f.rename r).locals, 0⟩, none⟩ := by
    rw [Function.locals_rename hr]
    rfl
  have hlocals : (f.rename r).locals.length = f.locals.length := by
    rw [Function.locals_rename hr, List.length_map]
  rw [hcontext] at hbody
  have hname : (f.rename r).name = f.name := rfl
  have hcode : (f.rename r).body = Stmt.renameAll r f.body := rfl
  simp only [function, hcode, hbody, hname, hlocals, Function.signature_rename]
  cases block f.body ⟨n, ⟨f.parameters, f.locals, 0⟩, none⟩ with
  | ok p => rfl
  | error e => cases e <;> rfl

theorem functions_rename (hrs : List.Forall₂ Function.Renames fs rs) (n : Nat) :
    functions (rs.zipWith Function.rename fs) n = functions fs n := by
  induction hrs generalizing n with
  | nil => rfl
  | cons hr _ ih =>
    rw [List.zipWith_cons_cons, functions, functions, function_rename hr.injOn]
    simp only [ih]

theorem duplicate?_rename (hrs : List.Forall₂ Function.Renames fs rs) (before : List Signature) :
    duplicate? before (rs.zipWith Function.rename fs) = duplicate? before fs := by
  induction hrs generalizing before with
  | nil => rfl
  | cons _ _ ih =>
    rw [List.zipWith_cons_cons, duplicate?, duplicate?, Function.signature_rename, ih]

theorem defined_rename (hrs : List.Forall₂ Function.Renames fs rs) :
    defined (rs.zipWith Function.rename fs) = defined fs := by
  have hsignatures : (rs.zipWith Function.rename fs).map Function.signature = fs.map Function.signature := by
    induction hrs with
    | nil => rfl
    | cons _ _ ih =>
      rw [List.zipWith_cons_cons, List.map_cons, List.map_cons, Function.signature_rename, ih]
  rw [defined, defined, hsignatures]

theorem undefined?_rename (hrs : List.Forall₂ Function.Renames fs rs) :
    undefined? (rs.zipWith Function.rename fs) = undefined? fs := by
  rw [undefined?, undefined?, defined_rename hrs]
  -- the functions that may be called stay those of the whole program
  generalize defined fs = signatures
  induction hrs with
  | nil => rfl
  | @cons f r _ _ _ _ ih =>
    have hname : (f.rename r).name = f.name := rfl
    rw [List.zipWith_cons_cons, List.findSome?_cons, List.findSome?_cons, Function.callees_rename, hname, ih]

theorem compileFunctions_rename (hrs : List.Forall₂ Function.Renames fs rs) :
    compileFunctions (rs.zipWith Function.rename fs) = compileFunctions fs := by
  rw [compileFunctions, compileFunctions, check, check, duplicate?_rename hrs, undefined?_rename hrs,
    defined_rename hrs, functions_rename hrs]

/-- The names of variables do not matter. Where each function of a program has its variables renamed,
different ones to different identifiers, the text is parsed as the renamed functions, and has the same code
or fails to compile for the same reason. The names may be written where the old ones stand, or the tokens
in any other layout. -/
theorem compile_renamed {text : String} (h : parse text = .ok fs)
    (hrs : List.Forall₂ Function.Renames fs rs) :
    compile (renamed rs text) = compile text ∧
      ∃ ks, (TokenStream.ofText text).kinds? = some ks ∧
        (TokenStream.ofText (renamed rs text)).kinds? = some (renameFunctions id rs ks) ∧
        ∀ text', (TokenStream.ofText text').kinds? = some (renameFunctions id rs ks) →
          parse text' = .ok (rs.zipWith Function.rename fs) ∧ compile text' = compile text := by
  obtain ⟨ks, hks, hd⟩ := derives_of_parse h
  have htokens := kinds?_renamed h hrs hks
  have hall : ∀ text', (TokenStream.ofText text').kinds? = some (renameFunctions id rs ks) →
      parse text' = .ok (rs.zipWith Function.rename fs) ∧ compile text' = compile text := by
    intro text' htext'
    have hp := parse_of_derives htext' (hd.renamed_functions hrs.length_eq id)
    refine ⟨hp, ?_⟩
    rw [compile, compile, hp, h]
    exact compileFunctions_rename hrs
  exact ⟨(hall _ htokens).2, ks, hks, htokens, hall⟩

end

/-- A parameter gets the name of its function, and the variables of `main` names of the other function's
variables and of functions. -/
theorem compile_renamed_functions : ∃ fs rs,
    parse "DEF f(a, b) RETURN a-b; END; DEF main() f := f(1, x); END;" = .ok fs ∧
    List.Forall₂ Function.Renames fs rs ∧
    renamed rs "DEF f(a, b) RETURN a-b; END; DEF main() f := f(1, x); END;" =
      "DEF f(x, f) RETURN x-f; END; DEF main() a := f(1, main); END;" ∧
    compile "DEF f(x, f) RETURN x-f; END; DEF main() a := f(1, main); END;" =
      compile "DEF f(a, b) RETURN a-b; END; DEF main() f := f(1, x); END;" := by
  have hown : (parse "DEF f(a, b) RETURN a-b; END; DEF main() f := f(1, x); END;").toOption.any (fun fs =>
      decide (List.Forall₂ Function.Renames fs
        [fun x => if x = "a" then "x" else "f", fun x => if x = "f" then "a" else "main"])) = true := by
    decide +kernel
  have htext : renamed [fun x => if x = "a" then "x" else "f", fun x => if x = "f" then "a" else "main"]
      "DEF f(a, b) RETURN a-b; END; DEF main() f := f(1, x); END;" =
      "DEF f(x, f) RETURN x-f; END; DEF main() a := f(1, main); END;" := by
    decide +kernel
  cases hp : parse "DEF f(a, b) RETURN a-b; END; DEF main() f := f(1, x); END;" with
  | error e =>
    rw [hp] at hown
    cases hown
  | ok fs =>
    rw [hp] at hown
    have hrs := of_decide_eq_true hown
    have hcode := (compile_renamed hp hrs).1
    rw [htext] at hcode
    exact ⟨fs, _, rfl, hrs, htext, hcode⟩

end WordMachine.Compiler
