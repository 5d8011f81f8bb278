import Mathlib.Control.Monad.Basic
import WordMachine.Proofs.Compiler.Labels
import WordMachine.Proofs.Compiler.Lines
import WordMachine.Proofs.Compiler.Validity

/-!
# What compiling ends with

A generator whose variables all have places fails at the first violation among the demands of what it
generates code for, and gives code where there is none: it never comes upon a defect of its own. The
checks that come before it find the first function that is defined twice, and then the first call of a
function that is not defined.
-/

namespace WordMachine.Compiler

open Source Generator

/-! ### Generators -/

/-- A generator ends with the violation that is found, or leaves this frame and the loop it found. -/
def EndsWith {α : Type} (g : Generator α) (c : Context) (frame : Frame) : (found : Option Violation) → Prop
  | none => ∃ a n, g c = .ok (a, ⟨n, frame, c.loop⟩)
  | some v => g c = .error (.violation v)

namespace EndsWith

variable {α β : Type} {g : Generator α} {k : α → Generator β} {c : Context} {n : Nat}
  {f f₁ : Frame} {l : Option Loop} {v w : Option Violation}

theorem pure {a : α} : EndsWith (pure a) ⟨n, f, l⟩ f none := ⟨a, n, rfl⟩

theorem fail {v : Violation} : EndsWith (Generator.fail (.violation v) : Generator α) c f (some v) := rfl

theorem bind (hg : EndsWith g c f v) (hk : ∀ a n, EndsWith (k a) ⟨n, f, c.loop⟩ f₁ w) :
    EndsWith (g >>= k) c f₁ (v.or w) := by
  have hb : (g >>= k) c = andThen g k c := rfl
  cases v with
  | some v =>
    show (g >>= k) c = _
    rw [hb, andThen, show g c = _ from hg]
  | none =>
    obtain ⟨a, m, ha⟩ := hg
    have hw := hk a m
    rw [Option.none_or]
    cases w with
    | some w =>
      show (g >>= k) c = _
      rw [hb, andThen, ha]
      exact hw
    | none =>
      obtain ⟨b, m', hb'⟩ := hw
      exact ⟨b, m', by rw [hb, andThen, ha]; exact hb'⟩

theorem last (hg : EndsWith g c f v) (hk : ∀ a n, EndsWith (k a) ⟨n, f, c.loop⟩ f₁ none) :
    EndsWith (g >>= k) c f₁ v := by
  have h := hg.bind hk
  rwa [Option.or_none] at h

theorem after {m : Nat} {a : α} {l₁ : Option Loop} (hg : g ⟨n, f, l⟩ = .ok (a, ⟨m, f₁, l₁⟩))
    (hl : l₁ = l) {f₂ : Frame} (hk : EndsWith (k a) ⟨m, f₁, l⟩ f₂ v) : EndsWith (g >>= k) ⟨n, f, l⟩ f₂ v := by
  subst hl
  have hb : (g >>= k) ⟨n, f, l₁⟩ = k a ⟨m, f₁, l₁⟩ := by
    show andThen g k ⟨n, f, l₁⟩ = _
    rw [andThen, hg]
  cases v with
  | some v =>
    show (g >>= k) _ = _
    rw [hb]
    exact hk
  | none =>
    obtain ⟨b, m', h⟩ := hk
    exact ⟨b, m', by rw [hb]; exact h⟩

theorem popped {j : Nat} : EndsWith (popped j) ⟨n, f.push j, l⟩ f none :=
  ⟨(), n, by simp [Generator.popped]⟩

theorem inLoop {i : Loop} (hg : EndsWith g ⟨n, f, some i⟩ f v) : EndsWith (inLoop i g) ⟨n, f, l⟩ f v := by
  cases v with
  | some v =>
    show Generator.inLoop i g _ = _
    rw [Generator.inLoop, show g { nextId := n, frame := f, loop := some i } = _ from hg]
  | none =>
    obtain ⟨a, m, ha⟩ := hg
    exact ⟨a, m, by rw [Generator.inLoop, show g { nextId := n, frame := f, loop := some i } = _ from ha]⟩

end EndsWith

/-! ### Expressions -/

theorem allVariables_append (es es' : List Expr) :
    Expr.allVariables (es ++ es') = Expr.allVariables es ++ Expr.allVariables es' := by
  induction es with
  | nil => simp [Expr.allVariables]
  | cons e es ih => simp [Expr.allVariables, ih]

/-- All of the variables have a place in a frame. -/
def Frame.Covers (f : Frame) (xs : List String) : Prop := ∀ x ∈ xs, (f.offset? x).isSome

section

variable {α : Type} {n m : Nat} {f : Frame} {l : Option Loop} {xs ys : List String}

theorem Frame.covers_append : f.Covers (xs ++ ys) ↔ f.Covers xs ∧ f.Covers ys := by
  simp only [Frame.Covers, List.forall_mem_append]

theorem Frame.Covers.push (h : f.Covers xs) (words : Nat) : (f.push words).Covers xs := by
  intro x hx
  rw [isSome_offset?_iff]
  exact (isSome_offset?_iff (f := f)).1 (h x hx)

theorem ends_offset {x : String} {k : Nat → Generator α} (h : f.Covers [x])
    (hk : ∀ i, EndsWith (k i) ⟨n, f, l⟩ f none) : EndsWith (offset x >>= k) ⟨n, f, l⟩ f none := by
  obtain ⟨i, hi⟩ := Option.isSome_iff_exists.1 (h x (List.mem_singleton_self x))
  exact EndsWith.after (offset_eq_ok.2 ⟨hi, rfl⟩) rfl (hk i)

theorem ends_truthValue (jump : Label → Assembly.Line) (r : Register) :
    EndsWith (truthValue jump r) ⟨n, f, l⟩ f none :=
  ⟨_, _, truthValue_eq_ok.2 ⟨rfl, rfl⟩⟩

theorem ends_combine (op : BinaryOp) (r r' : Register) : EndsWith (combine op r r') ⟨n, f, l⟩ f none :=
  ⟨_, _, combine_eq_ok.2 ⟨rfl, rfl⟩⟩

theorem ends_pushed {k : Generator α} {f₁ : Frame} {v : Option Violation} {words : Nat}
    (hk : EndsWith k ⟨n, f.push words, l⟩ f₁ v) : EndsWith (pushed words >>= fun _ => k) ⟨n, f, l⟩ f₁ v :=
  EndsWith.after (a := ()) (pushed_eq_ok.2 rfl) rfl hk

theorem ends_popped {k : Generator α} {f₁ : Frame} {v : Option Violation} {words : Nat}
    (hk : EndsWith k ⟨n, f, l⟩ f₁ v) :
    EndsWith (popped words >>= fun _ => k) ⟨n, f.push words, l⟩ f₁ v :=
  EndsWith.after (a := ()) (popped_eq_ok.2 rfl) rfl hk

end

mutual

theorem ends_expression (e : Expr) (out : Option Register) {n : Nat} {f : Frame} {l : Option Loop}
    (h : f.Covers e.variables) :
    EndsWith (expression e out) ⟨n, f, l⟩ f (firstViolation? e.demands) := by
  match e, out with
  | .int _, _ =>
    rw [expression]
    exact .pure
  | .name _, none =>
    rw [expression]
    exact .pure
  | .name x, some r =>
    rw [expression]
    exact ends_offset h fun i => .pure
  | .binary op left right, none =>
    obtain ⟨hl, hr⟩ := Frame.covers_append.1 h
    rw [expression, Expr.demands, firstViolation?_append]
    exact (ends_expression right none hr).bind fun second n₁ =>
      (ends_expression left none hl).last fun first n₂ => .pure
  | .binary op left right, some r =>
    obtain ⟨hl, hr⟩ := Frame.covers_append.1 h
    rw [expression, Expr.demands, firstViolation?_append]
    refine (ends_expression right (some r) hr).bind fun second n₁ => ends_pushed ?_
    refine (ends_expression left (some r) (hl.push 1)).last fun first n₂ => ends_popped ?_
    exact (ends_combine op r r.adjacent).last fun last n₃ => .pure
  | .unary .addressOf operand, out =>
    rw [expression]
    exact ends_address operand out h
  | .unary .negate operand, out =>
    rw [expression]
    exact (ends_expression operand out h).last fun code n₁ => .pure
  | .unary .bitNot operand, out =>
    rw [expression]
    exact (ends_expression operand out h).last fun code n₁ => .pure
  | .unary .logicalNot operand, none =>
    rw [expression]
    exact (ends_expression operand none h).last fun code n₁ => .pure
  | .unary .logicalNot operand, some r =>
    rw [expression]
    refine (ends_expression operand (some r) h).last fun code n₁ => ?_
    exact (ends_truthValue Code.jiz r).last fun truth n₂ => .pure
  | .unary .dereference operand, out =>
    rw [expression]
    exact (ends_expression operand out h).last fun code n₁ => .pure
  | .call callee es, out =>
    rw [expression, Expr.demands]
    refine (ends_pushArguments es _ h).last fun code n₁ => ends_popped ?_
    exact .pure

theorem ends_pushArguments (es : List Expr) (scratch : Register) {n : Nat} {f : Frame}
    {l : Option Loop} (h : f.Covers (Expr.allVariables es)) :
    EndsWith (pushArguments es scratch) ⟨n, f, l⟩ (f.push es.length)
      (firstViolation? (Expr.allDemands es)) := by
  match es with
  | [] =>
    rw [pushArguments]
    exact .pure
  | e :: es =>
    obtain ⟨he, hes⟩ := Frame.covers_append.1 h
    have hlen : (f.push 1).push es.length = f.push (es.length + 1) := by
      rw [Nat.add_comm es.length]
      simp only [Frame.push, Nat.add_assoc]
    rw [pushArguments, Expr.allDemands, firstViolation?_append, List.length_cons, ← hlen]
    refine (ends_expression e (some scratch) he).bind fun first n₁ => ends_pushed ?_
    exact (ends_pushArguments es scratch (hes.push 1)).last fun rest n₂ => .pure

theorem ends_address (e : Expr) (out : Option Register) {n : Nat} {f : Frame} {l : Option Loop}
    (h : f.Covers e.variables) :
    EndsWith (address e out) ⟨n, f, l⟩ f (firstViolation? (.place e :: e.demands)) := by
  match e, out with
  | .name _, none =>
    rw [address]
    exact .pure
  | .name x, some r =>
    rw [address]
    exact ends_offset h fun i => .pure
  | .unary .dereference operand, out =>
    rw [address]
    exact ends_expression operand out h
  | .int _, _ | .binary _ _ _, _ | .call _ _, _ | .unary .negate _, _ | .unary .bitNot _, _
  | .unary .logicalNot _, _ | .unary .addressOf _, _ => exact .fail

end

/-! ### Statements -/

theorem covers_cons {f : Frame} {e : Expr} {es : List Expr} :
    f.Covers (Expr.allVariables (e :: es)) ↔ f.Covers e.variables ∧ f.Covers (Expr.allVariables es) :=
  Frame.covers_append

theorem covers_allVariables_append {f : Frame} {es es' : List Expr} :
    f.Covers (Expr.allVariables (es ++ es')) ↔
      f.Covers (Expr.allVariables es) ∧ f.Covers (Expr.allVariables es') := by
  rw [allVariables_append, Frame.covers_append]

mutual

theorem ends_statement (s : Stmt) {n : Nat} {f : Frame} {l : Option Loop}
    (h : f.Covers (Expr.allVariables s.expressions)) :
    EndsWith (statement s) ⟨n, f, l⟩ f (firstViolation? (s.demands l.isSome)) := by
  match s with
  | .ifElse condition body otherwise =>
    obtain ⟨hc, hrest⟩ := covers_cons.1 h
    obtain ⟨hb, ho⟩ := covers_allVariables_append.1 hrest
    rw [statement, Stmt.demands, firstViolation?_append, firstViolation?_append]
    refine EndsWith.after (freshId_eq_ok.2 ⟨rfl, rfl⟩) rfl ?_
    rw [Option.or_assoc]
    refine (ends_expression condition _ hc).bind fun test n₁ => (ends_block body hb).bind fun first n₂ =>
      (ends_block otherwise ho).last fun second n₃ => ?_
    split
    · exact .pure
    · exact .pure
  | .whileDo condition body =>
    obtain ⟨hc, hb⟩ := covers_cons.1 h
    rw [statement, Stmt.demands, firstViolation?_append]
    refine EndsWith.after (freshId_eq_ok.2 ⟨rfl, rfl⟩) rfl ?_
    refine (ends_expression condition _ hc).bind fun test n₁ => ?_
    exact (EndsWith.inLoop (ends_block body hb)).last fun inner n₂ => .pure
  | .forDo counter start condition step body =>
    obtain ⟨hcounter, h⟩ := covers_cons.1 h
    obtain ⟨hstart, h⟩ := covers_cons.1 h
    obtain ⟨hcondition, h⟩ := covers_cons.1 h
    obtain ⟨hstep, hbody⟩ := covers_cons.1 h
    rw [statement, Stmt.demands, ← List.cons_append, ← List.cons_append, ← List.cons_append,
      ← List.cons_append]
    simp only [firstViolation?_append, Option.or_assoc]
    refine EndsWith.after (freshId_eq_ok.2 ⟨rfl, rfl⟩) rfl ?_
    refine (ends_address counter _ hcounter).bind fun place n₁ => ends_pushed ?_
    refine (ends_expression start _ (hstart.push 1)).bind fun first n₂ => ?_
    refine (ends_expression condition _ (hcondition.push 1)).bind fun test n₃ => ?_
    refine (EndsWith.inLoop (ends_block body (hbody.push 1))).bind fun inner n₄ => ?_
    refine (ends_expression step _ (hstep.push 1)).last fun last n₅ => ends_popped ?_
    exact .pure
  | .ret none =>
    rw [statement]
    exact EndsWith.after (frame_eq_ok.2 ⟨rfl, rfl⟩) rfl .pure
  | .ret (some value) =>
    rw [statement, Stmt.demands]
    refine (ends_expression value _ (covers_cons.1 h).1).last fun code n₁ => ?_
    exact EndsWith.after (frame_eq_ok.2 ⟨rfl, rfl⟩) rfl .pure
  | .breakLoop =>
    rw [statement, Stmt.demands]
    refine EndsWith.after (loop_eq_ok.2 ⟨rfl, rfl⟩) rfl ?_
    cases l with
    | none => exact .fail
    | some i => exact .pure
  | .continueLoop =>
    rw [statement, Stmt.demands]
    refine EndsWith.after (loop_eq_ok.2 ⟨rfl, rfl⟩) rfl ?_
    cases l with
    | none => exact .fail
    | some i => exact .pure
  | .assign target value =>
    obtain ⟨ht, h⟩ := covers_cons.1 h
    rw [statement, Stmt.demands, ← List.cons_append, firstViolation?_append]
    refine (ends_address target _ ht).bind fun place n₁ => ends_pushed ?_
    refine (ends_expression value _ ((covers_cons.1 h).1.push 1)).last fun code n₂ => ends_popped ?_
    exact .pure
  | .exec e =>
    rw [statement, Stmt.demands]
    exact ends_expression e none (covers_cons.1 h).1

theorem ends_block (ss : List Stmt) {n : Nat} {f : Frame} {l : Option Loop}
    (h : f.Covers (Expr.allVariables (Stmt.allExpressions ss))) :
    EndsWith (block ss) ⟨n, f, l⟩ f (firstViolation? (Stmt.allDemands l.isSome ss)) := by
  match ss with
  | [] =>
    rw [block]
    exact .pure
  | s :: ss =>
    obtain ⟨hs, hss⟩ := covers_allVariables_append.1 h
    rw [block, Stmt.allDemands, firstViolation?_append]
    exact (ends_statement s hs).bind fun first n₁ => (ends_block ss hss).last fun rest n₂ => .pure

end

/-! ### Functions -/

theorem covers_locals (f : Function) :
    Frame.Covers ⟨f.parameters, f.locals, 0⟩ (Expr.allVariables (Stmt.allExpressions f.body)) := by
  intro x hx
  rw [Frame.isSome_offset?_iff]
  by_cases hp : x ∈ f.parameters
  · exact .inr hp
  · exact .inl (List.mem_filter.2 ⟨mem_firsts.2 hx, by simpa using hp⟩)

/-- A function has code unless there is a violation in it, and then its error is the first one. -/
theorem function_outcome (f : Function) (n : Nat) :
    match violation? f with
    | none => ∃ p, function f n = .ok p
    | some v => function f n = .error (.violation f.name v) := by
  have h : EndsWith (block f.body) ⟨n, ⟨f.parameters, f.locals, 0⟩, none⟩ _ (violation? f) :=
    ends_block f.body (covers_locals f)
  split
  · next hv =>
    rw [hv] at h
    obtain ⟨code, n₁, hb⟩ := h
    exact ⟨_, by rw [function, hb]⟩
  · next v hv =>
    rw [hv] at h
    rw [function, show block f.body _ = _ from h]

theorem functions_cons (f : Function) (fs : List Function) (n : Nat) :
    functions (f :: fs) n = (function f n).bind fun p =>
      (functions fs p.2).bind fun rest => .ok (p.1 ++ rest) :=
  rfl

theorem functions_ok {fs : List Function} (h : ∀ f ∈ fs, violation? f = none) (n : Nat) :
    ∃ code, functions fs n = .ok code := by
  induction fs generalizing n with
  | nil => exact ⟨[], rfl⟩
  | cons f fs ih =>
    have hf := function_outcome f n
    rw [h f (List.mem_cons_self ..)] at hf
    obtain ⟨p, hp⟩ := hf
    obtain ⟨rest, hr⟩ := ih (fun g hg => h g (List.mem_cons_of_mem _ hg)) p.2
    exact ⟨p.1 ++ rest, by rw [functions_cons, hp]; simp [Except.bind, hr]⟩

theorem functions_error {before after : List Function} {f : Function} {v : Violation}
    (h : ∀ g ∈ before, violation? g = none) (hv : violation? f = some v) (n : Nat) :
    functions (before ++ f :: after) n = .error (.violation f.name v) := by
  induction before generalizing n with
  | nil =>
    have hf := function_outcome f n
    rw [hv] at hf
    rw [List.nil_append, functions_cons, hf]
    rfl
  | cons g before ih =>
    have hg := function_outcome g n
    rw [h g (List.mem_cons_self ..)] at hg
    obtain ⟨p, hp⟩ := hg
    rw [List.cons_append, functions_cons, hp]
    simp only [Except.bind]
    rw [ih (fun g hg => h g (List.mem_cons_of_mem _ hg)) p.2]

/-! ### Definitions -/

theorem duplicate?_eq_some_iff {fs : List Function} {before : List Signature} (hn : before.Nodup)
    {s : Signature} : duplicate? before fs = some s ↔ ∃ first f rest, fs = first ++ f :: rest ∧
      (before ++ first.map Function.signature).Nodup ∧
      f.signature ∈ before ++ first.map Function.signature ∧ f.signature = s := by
  induction fs generalizing before with
  | nil => simp [duplicate?]
  | cons f fs ih =>
    rw [duplicate?]
    split
    · next hm =>
      constructor
      · intro h
        exact ⟨[], f, fs, rfl, by simpa using hn, by simpa using hm, Option.some.inj h⟩
      · rintro ⟨first, g, rest, he, hnodup, hg, rfl⟩
        cases first with
        | nil =>
          cases he
          rfl
        | cons g₁ first =>
          cases he
          have hdisjoint := (List.nodup_append.1 hnodup).2.2 _ hm _ (List.mem_cons_self ..)
          exact absurd rfl hdisjoint
    · next hm =>
      have hn₁ : (before ++ [f.signature]).Nodup := by
        refine List.nodup_append.2 ⟨hn, by simp, ?_⟩
        intro a ha b hb hab
        exact hm (List.mem_singleton.1 hb ▸ hab ▸ ha)
      rw [ih hn₁]
      constructor
      · intro h
        obtain ⟨first, g, rest, rfl, hnodup, hg, hs⟩ := h
        exact ⟨f :: first, g, rest, rfl, by simpa using hnodup, by simpa using hg, hs⟩
      · intro h
        obtain ⟨first, g, rest, he, hnodup, hg, hs⟩ := h
        cases first with
        | nil =>
          cases he
          exact absurd (by simpa using hg) hm
        | cons g₁ first =>
          cases he
          exact ⟨first, g, rest, rfl, by simpa using hnodup, by simpa using hg, hs⟩

/-- Every function is defined once if no signature is there twice. -/
theorem distinct_iff {fs : List Function} : Distinct fs ↔ (defined fs).Nodup := by
  rw [defined, List.nodup_append]
  constructor
  · intro h
    refine ⟨by decide, h.nodup, ?_⟩
    intro a ha b hb hab
    obtain ⟨f, hf, hs⟩ := List.mem_map.1 hb
    exact h.own f hf (hs ▸ hab ▸ ha)
  · intro h
    obtain ⟨_, hnodup, hne⟩ := h
    exact ⟨hnodup, fun f hf hs => hne _ hs _ (List.mem_map_of_mem hf) rfl⟩

theorem duplicate?_eq_none_iff {fs : List Function} :
    duplicate? Signature.builtins fs = none ↔ Distinct fs := by
  have hb : Signature.builtins.Nodup := by decide
  rw [distinct_iff]
  constructor
  · intro h
    exact nodup_of_duplicate? h hb
  · intro h
    cases hd : duplicate? Signature.builtins fs with
    | none => rfl
    | some s =>
      obtain ⟨first, f, rest, rfl, _, hm, _⟩ := (duplicate?_eq_some_iff hb).1 hd
      rw [defined, List.map_append, List.map_cons, ← List.append_assoc] at h
      exact absurd rfl ((List.nodup_append.1 h).2.2 _ hm _ (List.mem_cons_self ..))

/-! ### Calls -/

theorem find?_firsts {α : Type} [DecidableEq α] (p : α → Bool) (as : List α) :
    (firsts as).find? p = as.find? p := by
  induction as with
  | nil => rfl
  | cons a as ih =>
    rw [firsts, List.find?_cons, List.find?_cons]
    cases hp : p a with
    | true => rfl
    | false =>
      -- what is left out does not satisfy the condition either
      have hq : (fun b => decide (decide (b ≠ a) = true ∧ p b = true)) = p := by
        funext b
        by_cases hb : b = a
        · simp [hb, hp]
        · simp [hb]
      rw [List.find?_filter, hq, ih]

theorem undefined?_eq_none_iff {fs : List Function} :
    undefined? fs = none ↔ ∀ f ∈ fs, CallsDefined fs f := by
  simp [undefined?, CallsDefined, Function.callees, find?_firsts]

theorem undefined?_eq_some_iff {fs : List Function} {caller : String} {g : Signature} :
    undefined? fs = some (caller, g) ↔ ∃ before f after calls rest, fs = before ++ f :: after ∧
      (∀ h ∈ before, CallsDefined fs h) ∧
      Expr.allCalls (Stmt.allExpressions f.body) = calls ++ g :: rest ∧
      (∀ c ∈ calls, c ∈ defined fs) ∧ g ∉ defined fs ∧ f.name = caller := by
  have hnone : ∀ h : Function, (h.callees.find? (· ∉ defined fs)).map
      (fun callee => (h.name, callee)) = none ↔ CallsDefined fs h := by
    intro h
    simp [CallsDefined, Function.callees, find?_firsts]
  rw [undefined?, List.findSome?_eq_some_iff]
  constructor
  · intro h
    obtain ⟨before, f, after, hfs, hf, hbefore⟩ := h
    obtain ⟨g₁, hg, he⟩ := Option.map_eq_some_iff.1 hf
    cases he
    rw [Function.callees, find?_firsts, List.find?_eq_some_iff_append] at hg
    obtain ⟨hg, calls, rest, hcalls, hdefined⟩ := hg
    exact ⟨before, f, after, calls, rest, hfs, fun h hm => (hnone h).1 (hbefore h hm), hcalls,
      fun c hc => by simpa using hdefined c hc, by simpa using hg, rfl⟩
  · intro h
    obtain ⟨before, f, after, calls, rest, hfs, hbefore, hcalls, hdefined, hg, rfl⟩ := h
    refine ⟨before, f, after, hfs, ?_, fun h hm => (hnone h).2 (hbefore h hm)⟩
    have hfind : f.callees.find? (· ∉ defined fs) = some g := by
      rw [Function.callees, find?_firsts, List.find?_eq_some_iff_append]
      exact ⟨by simpa using hg, calls, rest, hcalls, fun c hc => by simpa using hdefined c hc⟩
    rw [hfind]
    rfl

/-! ### Programs -/

theorem main_mem_defined_iff {fs : List Function} :
    Signature.main ∈ defined fs ↔ ∃ f ∈ fs, f.signature = .main := by
  have hb : Signature.main ∉ Signature.builtins := by decide
  rw [defined, List.mem_append, List.mem_map]
  exact ⟨fun h => h.resolve_left hb, .inr⟩

section

variable {fs : List Function} {e : Error}

theorem compileFunctions_of_check (h : check fs = .ok ()) :
    compileFunctions fs = (functions fs 0).bind fun code =>
      .ok (preamble ++ code ++ [Code.label .programEnd]) := by
  show (check fs).bind _ = _
  rw [h]
  rfl

theorem compileFunctions_of_check_error (h : check fs = .error e) : compileFunctions fs = .error e := by
  show (check fs).bind _ = _
  rw [h]
  rfl

theorem check_eq_ok (hd : Distinct fs) (hc : ∀ f ∈ fs, CallsDefined fs f)
    (hm : ∃ f ∈ fs, f.signature = .main) : check fs = .ok () := by
  rw [check, duplicate?_eq_none_iff.2 hd, undefined?_eq_none_iff.2 hc]
  exact if_pos (main_mem_defined_iff.2 hm)

theorem compileFunctions_of_valid (h : Valid fs) : ∃ code, compileFunctions fs = .ok code := by
  obtain ⟨code, hcode⟩ := functions_ok (fun f hf => violation?_eq_none_iff.2 (h.wellFormed f hf)) 0
  rw [compileFunctions_of_check (check_eq_ok h.distinct h.calls h.main), hcode]
  exact ⟨_, rfl⟩

theorem compileFunctions_of_fault (h : FirstFault fs e) : compileFunctions fs = .error e := by
  cases h with
  | @duplicate before f after hfs hd hm =>
    apply compileFunctions_of_check_error
    have hs : duplicate? Signature.builtins fs = some f.signature :=
      (duplicate?_eq_some_iff (by decide)).2 ⟨before, f, after, hfs, distinct_iff.1 hd, hm, rfl⟩
    rw [check, hs]
  | undefined hd hfs hbefore hcalls hdefined hg =>
    apply compileFunctions_of_check_error
    have hu := undefined?_eq_some_iff.2
      ⟨_, _, _, _, _, hfs, hbefore, hcalls, hdefined, hg, rfl⟩
    rw [check, duplicate?_eq_none_iff.2 hd, hu]
  | missingMain hd hc hm =>
    apply compileFunctions_of_check_error
    rw [check, duplicate?_eq_none_iff.2 hd, undefined?_eq_none_iff.2 hc]
    refine if_neg fun h => ?_
    obtain ⟨f, hf, hs⟩ := main_mem_defined_iff.1 h
    exact hm f hf hs
  | violation hd hc hm hfs hbefore hv =>
    rw [compileFunctions_of_check (check_eq_ok hd hc hm)]
    have hbefore' := fun g hg => violation?_eq_none_iff.2 (hbefore g hg)
    rw [hfs, functions_error hbefore' hv]
    rfl

/-- A program is valid, or there is a first thing that is wrong with it. -/
theorem valid_or_fault (fs : List Function) : Valid fs ∨ ∃ e, FirstFault fs e := by
  cases hd : duplicate? Signature.builtins fs with
  | some s =>
    obtain ⟨before, f, after, hfs, hnodup, hm, rfl⟩ := (duplicate?_eq_some_iff (by decide)).1 hd
    exact .inr ⟨_, .duplicate hfs (distinct_iff.2 hnodup) hm⟩
  | none =>
    rw [duplicate?_eq_none_iff] at hd
    cases hu : undefined? fs with
    | some p =>
      obtain ⟨before, f, after, calls, rest, hfs, hbefore, hcalls, hdefined, hg, _⟩ :=
        undefined?_eq_some_iff.1 hu
      exact .inr ⟨_, .undefined hd hfs hbefore hcalls hdefined hg⟩
    | none =>
      rw [undefined?_eq_none_iff] at hu
      by_cases hm : ∃ f ∈ fs, f.signature = .main
      · cases hv : fs.findSome? (fun f => (violation? f).map fun v => (f, v)) with
        | some p =>
          obtain ⟨before, f, after, hfs, hf, hbefore⟩ := List.findSome?_eq_some_iff.1 hv
          obtain ⟨v, hfv, _⟩ := Option.map_eq_some_iff.1 hf
          refine .inr ⟨_, .violation hd hu hm hfs (fun g hg => ?_) hfv⟩
          exact violation?_eq_none_iff.1 (Option.map_eq_none_iff.1 (hbefore g hg))
        | none =>
          rw [List.findSome?_eq_none_iff] at hv
          exact .inl ⟨hd, hu, hm, fun f hf =>
            violation?_eq_none_iff.1 (Option.map_eq_none_iff.1 (hv f hf))⟩
      · exact .inr ⟨_, .missingMain hd hu fun f hf hs => hm ⟨f, hf, hs⟩⟩

end

end WordMachine.Compiler
