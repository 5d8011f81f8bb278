import WordMachine.Proofs.Compiler.Outcome
import WordMachine.Proofs.Source.Recording

/-!
# What generators ask the frame

A generator asks the frame for the places of variables and takes words off that it has pushed. Whatever
the frame is, it asks for variables of its own phrase only, never takes off more than it has pushed, and
leaves the frame and the innermost loop as they were. The frame of a function has a place for every
variable that its body asks for, because the name was recorded when the body was read; so compiling
ends with code or with an error in the text.
-/

namespace WordMachine.Compiler

open Source Generator

/-- A generator asks the frame for a name: there is a context in which it fails for want of it. -/
def Generator.AsksFor {α : Type} (g : Generator α) (x : String) : Prop :=
  ∃ c, g c = .error (.defect (.unknownVariable x))

/-- A generator that succeeds leaves this frame and the loop it found, and the only defect it can come
upon is that a name for which `P` holds has no place. -/
structure Keeps {α : Type} (P : String → Prop) (g : Generator α) (c : Context) (frame : Frame) :
    Prop where
  ok : ∀ a after, g c = .ok (a, after) → after.frame = frame ∧ after.loop = c.loop
  defect : ∀ d, g c = .error (.defect d) → ∃ x, P x ∧ d = .unknownVariable x

/-- `P` holds for those of the names that have no place in a frame. -/
def Frame.Lacks (f : Frame) (xs : List String) (P : String → Prop) : Prop :=
  ∀ x ∈ xs, f.offset? x = none → P x

section

variable {α β : Type} {P : String → Prop} {g : Generator α} {k : α → Generator β} {c : Context}
  {n m : Nat} {f f₁ : Frame} {l : Option Loop} {x : String} {xs ys : List String} {a : α}

theorem Frame.lacks_append : f.Lacks (xs ++ ys) P ↔ f.Lacks xs P ∧ f.Lacks ys P := by
  simp only [Frame.Lacks, List.forall_mem_append]

theorem Frame.Lacks.push (h : f.Lacks xs P) (words : Nat) : (f.push words).Lacks xs P := by
  intro x hx hnone
  refine h x hx (Option.not_isSome_iff_eq_none.1 fun hs => ?_)
  have hpushed := (isSome_offset?_iff (f := f.push words)).2 ((isSome_offset?_iff (f := f)).1 hs)
  rw [hnone] at hpushed
  cases hpushed

/-! ### Parts of generators -/

namespace Keeps

theorem of_ok (h : g ⟨n, f, l⟩ = .ok (a, ⟨m, f₁, l⟩)) : Keeps P g ⟨n, f, l⟩ f₁ where
  ok b after hb := by
    rw [h] at hb
    cases hb
    exact ⟨rfl, rfl⟩
  defect d hd := by
    rw [h] at hd
    cases hd

theorem pure : Keeps P (pure a : Generator α) ⟨n, f, l⟩ f := of_ok (m := n) rfl

theorem fail {v : Violation} : Keeps P (Generator.fail (.violation v) : Generator α) c f where
  ok _ _ h := by cases h
  defect _ h := by cases h

theorem bind (hg : Keeps P g c f) (hk : ∀ a n, Keeps P (k a) ⟨n, f, c.loop⟩ f₁) :
    Keeps P (g >>= k) c f₁ where
  ok b after h := by
    rcases bind_eq_ok.1 h with ⟨a, ⟨n, f', l'⟩, ha, hb⟩
    rcases hg.ok a _ ha with ⟨rfl, rfl⟩
    exact (hk a n).ok b after hb
  defect d h := by
    have hb : (g >>= k) c = andThen g k c := rfl
    rw [hb, andThen] at h
    cases hc : g c with
    | error e =>
      rw [hc] at h
      cases h
      exact hg.defect d hc
    | ok p =>
      rcases p with ⟨a, n, f', l'⟩
      rcases hg.ok a _ hc with ⟨rfl, rfl⟩
      rw [hc] at h
      exact (hk a n).defect d h

theorem offset (h : f.Lacks [x] P) : Keeps P (Generator.offset x) ⟨n, f, l⟩ f := by
  cases hx : f.offset? x with
  | some i => exact of_ok (a := i) (m := n) (offset_eq_ok.2 ⟨hx, rfl⟩)
  | none =>
    have herror : Generator.offset x ⟨n, f, l⟩ = .error (.defect (.unknownVariable x)) := by
      simp only [Generator.offset, hx]
    refine ⟨fun b after hb => ?_, fun d hd => ?_⟩
    · rw [herror] at hb
      cases hb
    · rw [herror] at hd
      cases hd
      exact ⟨x, h x (List.mem_singleton_self x) hx, rfl⟩

theorem freshId : Keeps P Generator.freshId ⟨n, f, l⟩ f := of_ok (m := n + 1) rfl

theorem frame : Keeps P Generator.frame ⟨n, f, l⟩ f := of_ok (m := n) rfl

theorem loop : Keeps P Generator.loop ⟨n, f, l⟩ f := of_ok (m := n) rfl

theorem pushed (j : Nat) : Keeps P (Generator.pushed j) ⟨n, f, l⟩ (f.push j) := of_ok (m := n) rfl

theorem popped (j : Nat) : Keeps P (Generator.popped j) ⟨n, f.push j, l⟩ f :=
  of_ok (a := ()) (popped_eq_ok.2 rfl)

theorem truthValue (jump : Label → Assembly.Line) (r : Register) :
    Keeps P (Compiler.truthValue jump r) ⟨n, f, l⟩ f :=
  of_ok (truthValue_eq_ok.2 ⟨rfl, rfl⟩)

theorem combine (op : BinaryOp) (r r' : Register) : Keeps P (Compiler.combine op r r') ⟨n, f, l⟩ f :=
  of_ok (combine_eq_ok.2 ⟨rfl, rfl⟩)

theorem inLoop {i : Loop} (hg : Keeps P g ⟨n, f, some i⟩ f) : Keeps P (inLoop i g) ⟨n, f, l⟩ f where
  ok a after h := by
    rcases inLoop_eq_ok.1 h with ⟨d, ha, rfl⟩
    exact ⟨(hg.ok a d ha).1, rfl⟩
  defect d h := by
    refine hg.defect d ?_
    simp only [Generator.inLoop] at h
    split at h
    · cases h
    · next e he =>
      cases h
      exact he

end Keeps

end

/-! ### Expressions -/

mutual

theorem keeps_expression (e : Expr) (out : Option Register) {P : String → Prop} {n : Nat} {f : Frame}
    {l : Option Loop} (h : f.Lacks e.variables P) : Keeps P (expression e out) ⟨n, f, l⟩ f := by
  match e, out with
  | .int _, _ | .name _, none =>
    rw [expression]
    exact .pure
  | .name x, some r =>
    rw [expression]
    exact (Keeps.offset h).bind fun i n₁ => .pure
  | .binary op left right, none =>
    rcases Frame.lacks_append.1 h with ⟨hl, hr⟩
    rw [expression]
    exact (keeps_expression right none hr).bind fun second n₁ =>
      (keeps_expression left none hl).bind fun first n₂ => .pure
  | .binary op left right, some r =>
    rcases Frame.lacks_append.1 h with ⟨hl, hr⟩
    rw [expression]
    refine (keeps_expression right (some r) hr).bind fun second n₁ => (Keeps.pushed 1).bind fun _ n₂ => ?_
    refine (keeps_expression left (some r) (hl.push 1)).bind fun first n₃ => ?_
    refine (Keeps.popped 1).bind fun _ n₄ => ?_
    exact (Keeps.combine op r r.adjacent).bind fun last n₅ => .pure
  | .unary .addressOf operand, out =>
    rw [expression]
    exact keeps_address operand out h
  | .unary .negate operand, out | .unary .bitNot operand, out | .unary .dereference operand, out
  | .unary .logicalNot operand, none =>
    rw [expression]
    exact (keeps_expression operand _ h).bind fun code n₁ => .pure
  | .unary .logicalNot operand, some r =>
    rw [expression]
    refine (keeps_expression operand (some r) h).bind fun code n₁ => ?_
    exact (Keeps.truthValue Code.jiz r).bind fun truth n₂ => .pure
  | .call callee es, out =>
    rw [expression]
    refine (keeps_pushArguments es _ h).bind fun code n₁ => ?_
    exact (Keeps.popped es.length).bind fun _ n₂ => .pure

theorem keeps_pushArguments (es : List Expr) (scratch : Register) {P : String → Prop} {n : Nat}
    {f : Frame} {l : Option Loop} (h : f.Lacks (Expr.allVariables es) P) :
    Keeps P (pushArguments es scratch) ⟨n, f, l⟩ (f.push es.length) := by
  match es with
  | [] =>
    rw [pushArguments]
    exact .pure
  | e :: es =>
    rcases Frame.lacks_append.1 h with ⟨he, hes⟩
    have hlen : (f.push 1).push es.length = f.push (es.length + 1) := by
      rw [Frame.push_push, Nat.add_comm]
    rw [pushArguments, List.length_cons, ← hlen]
    refine (keeps_expression e (some scratch) he).bind fun first n₁ => (Keeps.pushed 1).bind fun _ n₂ => ?_
    exact (keeps_pushArguments es scratch (hes.push 1)).bind fun rest n₃ => .pure

theorem keeps_address (e : Expr) (out : Option Register) {P : String → Prop} {n : Nat} {f : Frame}
    {l : Option Loop} (h : f.Lacks e.variables P) : Keeps P (address e out) ⟨n, f, l⟩ f := by
  match e, out with
  | .name _, none =>
    rw [address]
    exact .pure
  | .name x, some r =>
    rw [address]
    exact (Keeps.offset h).bind fun i n₁ => .pure
  | .unary .dereference operand, out =>
    rw [address]
    exact keeps_expression operand out h
  | .int _, _ | .binary _ _ _, _ | .call _ _, _ | .unary .negate _, _ | .unary .bitNot _, _
  | .unary .logicalNot _, _ | .unary .addressOf _, _ => exact .fail

end

/-! ### Statements -/

theorem lacks_cons {P : String → Prop} {f : Frame} {e : Expr} {es : List Expr} :
    f.Lacks (Expr.allVariables (e :: es)) P ↔
      f.Lacks e.variables P ∧ f.Lacks (Expr.allVariables es) P :=
  Frame.lacks_append

theorem lacks_allVariables_append {P : String → Prop} {f : Frame} {es es' : List Expr} :
    f.Lacks (Expr.allVariables (es ++ es')) P ↔
      f.Lacks (Expr.allVariables es) P ∧ f.Lacks (Expr.allVariables es') P := by
  rw [allVariables_append, Frame.lacks_append]

mutual

theorem keeps_statement (s : Stmt) {P : String → Prop} {n : Nat} {f : Frame} {l : Option Loop}
    (h : f.Lacks (Expr.allVariables s.expressions) P) : Keeps P (statement s) ⟨n, f, l⟩ f := by
  match s with
  | .ifElse condition body otherwise =>
    rcases lacks_cons.1 h with ⟨hc, hrest⟩
    rcases lacks_allVariables_append.1 hrest with ⟨hb, ho⟩
    rw [statement]
    refine Keeps.freshId.bind fun id n₁ => (keeps_expression condition _ hc).bind fun test n₂ => ?_
    refine (keeps_block body hb).bind fun first n₃ => (keeps_block otherwise ho).bind fun second n₄ => ?_
    split
    · exact .pure
    · exact .pure
  | .whileDo condition body =>
    rcases lacks_cons.1 h with ⟨hc, hb⟩
    rw [statement]
    refine Keeps.freshId.bind fun id n₁ => (keeps_expression condition _ hc).bind fun test n₂ => ?_
    exact (Keeps.inLoop (keeps_block body hb)).bind fun inner n₃ => .pure
  | .forDo counter start condition step body =>
    rcases lacks_cons.1 h with ⟨hcounter, h⟩
    rcases lacks_cons.1 h with ⟨hstart, h⟩
    rcases lacks_cons.1 h with ⟨hcondition, h⟩
    rcases lacks_cons.1 h with ⟨hstep, hbody⟩
    rw [statement]
    refine Keeps.freshId.bind fun id n₁ => (keeps_address counter _ hcounter).bind fun place n₂ => ?_
    -- the address of the counter lies above the frame until the loop is over
    refine (Keeps.pushed 1).bind fun _ n₃ => ?_
    refine (keeps_expression start _ (hstart.push 1)).bind fun first n₄ => ?_
    refine (keeps_expression condition _ (hcondition.push 1)).bind fun test n₅ => ?_
    refine (Keeps.inLoop (keeps_block body (hbody.push 1))).bind fun inner n₆ => ?_
    refine (keeps_expression step _ (hstep.push 1)).bind fun last n₇ => ?_
    exact (Keeps.popped 1).bind fun _ n₈ => .pure
  | .ret none =>
    rw [statement]
    exact Keeps.frame.bind fun g n₁ => .pure
  | .ret (some value) =>
    rw [statement]
    refine (keeps_expression value _ (lacks_cons.1 h).1).bind fun code n₁ => ?_
    exact Keeps.frame.bind fun g n₂ => .pure
  | .breakLoop | .continueLoop =>
    rw [statement]
    refine Keeps.loop.bind fun i n₁ => ?_
    cases i with
    | none => exact .fail
    | some i => exact .pure
  | .assign target value =>
    rcases lacks_cons.1 h with ⟨ht, h⟩
    rw [statement]
    refine (keeps_address target _ ht).bind fun place n₁ => (Keeps.pushed 1).bind fun _ n₂ => ?_
    refine (keeps_expression value _ ((lacks_cons.1 h).1.push 1)).bind fun code n₃ => ?_
    exact (Keeps.popped 1).bind fun _ n₄ => .pure
  | .exec e =>
    rw [statement]
    exact keeps_expression e none (lacks_cons.1 h).1

theorem keeps_block (ss : List Stmt) {P : String → Prop} {n : Nat} {f : Frame} {l : Option Loop}
    (h : f.Lacks (Expr.allVariables (Stmt.allExpressions ss)) P) : Keeps P (block ss) ⟨n, f, l⟩ f := by
  match ss with
  | [] =>
    rw [block]
    exact .pure
  | s :: ss =>
    rcases lacks_allVariables_append.1 h with ⟨hs, hss⟩
    rw [block]
    exact (keeps_statement s hs).bind fun first n₁ => (keeps_block ss hss).bind fun rest n₂ => .pure

end

/-! ### Functions -/

theorem lacks_all {f : Frame} {xs : List String} : f.Lacks xs fun x => x ∈ xs := fun _ hx _ => hx

theorem lacks_own (f : Function) :
    Frame.Lacks ⟨f.parameters, f.locals, 0⟩ (Expr.allVariables (Stmt.allExpressions f.body))
      fun _ => False := by
  intro x hx hnone
  have hplace := covers_locals f x hx
  rw [hnone] at hplace
  cases hplace

/-- What a body asks for is a parameter or a local variable, whatever frame it finds. -/
theorem own_of_asksFor {f : Function} {x : String} (h : (block f.body).AsksFor x) :
    x ∈ f.parameters ∨ x ∈ f.locals := by
  rcases h with ⟨⟨n, g, l⟩, hc⟩
  rcases (keeps_block f.body lacks_all).defect _ hc with ⟨y, hy, he⟩
  cases he
  have hplace := Frame.isSome_offset?_iff.1 (covers_locals f x hy)
  exact hplace.symm

theorem compile_ne_defect (text : String) (d : Defect) : compile text ≠ .error (.defect d) := by
  intro h
  rw [compile] at h
  cases hp : parse text with
  | error e =>
    rw [hp] at h
    cases h
  | ok fs =>
    rw [hp] at h
    dsimp only at h
    rcases valid_or_fault fs with hvalid | ⟨e, hfault⟩
    · rcases compileFunctions_of_valid hvalid with ⟨code, hcode⟩
      rw [hcode] at h
      cases h
    · rw [compileFunctions_of_fault hfault] at h
      cases h
      cases hfault

/-- Compiling a text ends with code or with an error in the text. The local variables of a function are
what was recorded when the tokens of its body were taken; of other names than these and the parameters
no place is asked in any context, and in the frame of the function none is missing. No statement takes
off more words than it has pushed, and one that compiles leaves the frame and the loop as they were, so
that nothing lies above the frame at the end of a function. Taking an address is left to `address`. -/
theorem compile_free_of_defects (text : String) :
    ((∃ code, compile text = .ok code) ∨ ∃ e, compile text = .error e ∧ ∀ d, e ≠ .defect d) ∧
    (∀ fs, parse text = .ok fs → ∀ f ∈ fs,
      (∃ before names body after, (TokenStream.ofText text).kinds? =
          some (before ++ .keyword .DEF :: .name f.name :: .leftParen ::
            (names ++ .rightParen :: (body ++ .keyword .END :: .semicolon :: after))) ∧
        Grammar.Derives .accepted (.parameters f.parameters) names ∧
        Grammar.Derives .accepted (.block f.body) body ∧
        f.locals = (recorded body).filter (· ∉ f.parameters)) ∧
      (∀ x, (block f.body).AsksFor x → x ∈ f.parameters ∨ x ∈ f.locals) ∧
      ∀ n, (∀ d, block f.body ⟨n, ⟨f.parameters, f.locals, 0⟩, none⟩ ≠ .error (.defect d)) ∧
        ∀ code after, block f.body ⟨n, ⟨f.parameters, f.locals, 0⟩, none⟩ = .ok (code, after) →
          after.frame.pushed = 0 ∧ after.loop = none) ∧
    (∀ s c, statement s c ≠ .error (.defect .stackUnderflow)) ∧
    (∀ s c code after, statement s c = .ok (code, after) →
      after.frame = c.frame ∧ after.loop = c.loop) ∧
    ∀ operand out, expression (.unary .addressOf operand) out = address operand out := by
  refine ⟨?_, fun fs hp f hf => ⟨?_, fun x => own_of_asksFor, fun n => ⟨fun d hd => ?_, ?_⟩⟩, ?_, ?_, ?_⟩
  · cases hc : compile text with
    | ok code => exact .inl ⟨code, rfl⟩
    | error e => exact .inr ⟨e, rfl, fun d he => compile_ne_defect text d (he ▸ hc)⟩
  · rcases derives_of_parse hp with ⟨ks, hks, hd⟩
    rcases hd.exists_function hf with ⟨before, names, body, after, rfl, hnames, hbody⟩
    exact ⟨before, names, body, after, hks, hnames, hbody, locals_eq_recorded hbody⟩
  · rcases (keeps_block f.body (lacks_own f)).defect d hd with ⟨x, hx, _⟩
    exact hx
  · intro code after h
    rcases (keeps_block f.body (lacks_own f)).ok code after h with ⟨hframe, hloop⟩
    exact ⟨congrArg Frame.pushed hframe, hloop⟩
  · rintro s ⟨n, f, l⟩ h
    rcases (keeps_statement s lacks_all).defect _ h with ⟨x, _, hx⟩
    cases hx
  · rintro s ⟨n, f, l⟩ code after h
    exact (keeps_statement s lacks_all).ok code after h
  · intro operand out
    rw [expression]

/-- The body asks for `x`, which was recorded in it. -/
theorem compile_free_of_defects_local : ∃ fs f, parse "DEF main() RETURN x; END;" = .ok fs ∧ f ∈ fs ∧
    (block f.body).AsksFor "x" ∧ "x" ∈ f.locals ∧
    ∀ n d, block f.body ⟨n, ⟨f.parameters, f.locals, 0⟩, none⟩ ≠ .error (.defect d) := by
  have hname : Grammar.Derives .accepted (.expression (.name "x")) [.name "x"] :=
    .onlySum (.onlyProduct (.onlyAtom .name))
  have hd := Grammar.Derives.moreFunctions
    (.function (f := "main") .noParameters (.moreStatements (.ret hname) .noStatements)) .noFunctions
  have hks : (TokenStream.ofText "DEF main() RETURN x; END;").kinds? = some [.keyword .DEF,
      .name "main", .leftParen, .rightParen, .keyword .RETURN, .name "x", .semicolon, .keyword .END,
      .semicolon] := by
    decide +kernel
  have hp := parse_of_derives hks hd
  have hasks : (block [.ret (some (.name "x"))]).AsksFor "x" :=
    ⟨⟨0, ⟨[], [], 0⟩, none⟩, by decide +kernel⟩
  rcases (compile_free_of_defects _).2.1 _ hp _ (List.mem_singleton_self _) with ⟨-, hown, hbody⟩
  exact ⟨_, _, hp, List.mem_singleton_self _, hasks, (hown "x" hasks).resolve_left List.not_mem_nil,
    fun n => (hbody n).1⟩

end WordMachine.Compiler
