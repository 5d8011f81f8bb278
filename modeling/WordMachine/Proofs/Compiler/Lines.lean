import WordMachine.Proofs.Compiler.Jumps

/-!
# Lines of emitted code

Which lines occur in the code of a part. Calls go to the functions that the part calls, other jumps to
numbered labels, and only registers are set to numbers.
-/

namespace WordMachine.Compiler

open Assembly Source

def Part.calls : Part → List Signature
  | .value e _ => e.calls
  | .arguments es _ => Expr.allCalls es
  | .place e _ => e.calls
  | .statement s => Expr.allCalls s.expressions
  | .block ss => Expr.allCalls (Stmt.allExpressions ss)

/-- A line of the code of functions with this property, in which such functions are called. -/
inductive Ordinary (p : Signature → Prop) : Line → Prop
  | blank : Ordinary p .blank
  | entry {g} : p g → Ordinary p (Code.label (.function g))
  | label {l : Label} : l.id?.isSome → Ordinary p (Code.label l)
  | call {g} : p g → Ordinary p (Code.call (.function g))
  | jump {l : Label} : l.id?.isSome → Ordinary p (Code.jmp l)
  | branch {line c} {l : Label} : Machine.Branches line c → l.id?.isSome → Ordinary p (line l)
  | set {r n} : Ordinary p (Code.set r n)
  | plain {i} : i.operands.value? = none → Ordinary p (.instruction i)

def AllOrdinary (p : Signature → Prop) (code : Code) : Prop := ∀ line ∈ code, Ordinary p line

section

variable {p q : Signature → Prop} {a b code : Code} {line : Line}

theorem Ordinary.mono (h : Ordinary p line) (hpq : ∀ g, p g → q g) : Ordinary q line := by
  cases h with
  | blank => exact .blank
  | entry hg => exact .entry (hpq _ hg)
  | label hl => exact .label hl
  | call hg => exact .call (hpq _ hg)
  | jump hl => exact .jump hl
  | branch hb hl => exact .branch hb hl
  | set => exact .set
  | plain hv => exact .plain hv

theorem Ordinary.of_call {g : Signature} (h : Ordinary p (Code.call (.function g))) : p g := by
  generalize hline : Code.call (.function g) = line at h
  cases h with
  | @call g' hg =>
    rw [eq_of_call_eq hline]
    exact hg
  | plain hv =>
    cases hline
    cases hv
  | branch hb => cases hb <;> cases hline
  | _ => cases hline

theorem AllOrdinary.mono (h : AllOrdinary p code) (hpq : ∀ g, p g → q g) : AllOrdinary q code :=
  fun line hl => (h line hl).mono hpq

theorem allOrdinary_nil : AllOrdinary p [] := by
  intro line hl
  cases hl

theorem AllOrdinary.cons (hl : Ordinary p line) (h : AllOrdinary p code) :
    AllOrdinary p (line :: code) :=
  List.forall_mem_cons.2 ⟨hl, h⟩

theorem AllOrdinary.append (ha : AllOrdinary p a) (hb : AllOrdinary p b) : AllOrdinary p (a ++ b) :=
  List.forall_mem_append.2 ⟨ha, hb⟩

theorem allOrdinary_single (h : Ordinary p line) : AllOrdinary p [line] := .cons h allOrdinary_nil

theorem allOrdinary_addressAt (n : Nat) (r : Register) : AllOrdinary p (addressAt n r) := by
  unfold addressAt
  split
  · exact allOrdinary_single (.plain rfl)
  · exact .cons .set (allOrdinary_single (.plain rfl))

theorem allOrdinary_valueAt (n : Nat) (r : Register) : AllOrdinary p (valueAt n r) := by
  unfold valueAt
  split
  · exact allOrdinary_single (.plain rfl)
  · exact (allOrdinary_addressAt n r).append (allOrdinary_single (.plain rfl))

theorem allOrdinary_release (r : Register) (n : Nat) : AllOrdinary p (Code.release r n) := by
  unfold Code.release
  split
  · exact allOrdinary_nil
  · exact .cons .set (allOrdinary_single (.plain rfl))

theorem allOrdinary_reserve (r : Register) (n : Nat) : AllOrdinary p (Code.reserve r n) := by
  unfold Code.reserve
  split
  · exact allOrdinary_nil
  · exact .cons .set (allOrdinary_single (.plain rfl))

theorem allOrdinary_truthCode {jump : Label → Line} {c : Flags → Bool} (hc : Machine.Branches jump c)
    (r : Register) (id : Nat) : AllOrdinary p (truthCode jump r id) :=
  .cons .set (.cons (.branch hc rfl) (.cons (.plain rfl) (allOrdinary_single (.label rfl))))

theorem allOrdinary_combination (op : BinaryOp) (r x : Register) (id : Nat) :
    AllOrdinary p (combination op r x id) := by
  cases op with
  | equal => exact .cons (.plain rfl) (allOrdinary_truthCode .jiz r id)
  | less | greater => exact .cons (.plain rfl) (allOrdinary_truthCode .jis r id)
  | add | subtract | bitOr | bitXor | multiply | divide | remainder | bitAnd =>
    exact allOrdinary_single (.plain rfl)

end

theorem allCalls_append (es es' : List Expr) :
    Expr.allCalls (es ++ es') = Expr.allCalls es ++ Expr.allCalls es' := by
  induction es with
  | nil => simp [Expr.allCalls]
  | cons e es ih => simp [Expr.allCalls, ih]

section

variable {g : Signature} {e e' start condition step : Expr} {s : Stmt} {ss ts : List Stmt}

theorem mem_calls_ifElse : g ∈ (Part.statement (.ifElse e ss ts)).calls ↔
    g ∈ e.calls ∨ g ∈ (Part.block ss).calls ∨ g ∈ (Part.block ts).calls := by
  simp [Part.calls, Stmt.expressions, Expr.allCalls, allCalls_append]

theorem mem_calls_whileDo : g ∈ (Part.statement (.whileDo e ss)).calls ↔
    g ∈ e.calls ∨ g ∈ (Part.block ss).calls := by
  simp [Part.calls, Stmt.expressions, Expr.allCalls]

theorem mem_calls_forDo : g ∈ (Part.statement (.forDo e start condition step ss)).calls ↔
    g ∈ e.calls ∨ g ∈ start.calls ∨ g ∈ condition.calls ∨ g ∈ step.calls ∨
      g ∈ (Part.block ss).calls := by
  simp [Part.calls, Stmt.expressions, Expr.allCalls]

theorem mem_calls_assign : g ∈ (Part.statement (.assign e e')).calls ↔ g ∈ e.calls ∨ g ∈ e'.calls := by
  simp [Part.calls, Stmt.expressions, Expr.allCalls]

theorem mem_calls_cons : g ∈ (Part.block (s :: ss)).calls ↔
    g ∈ (Part.statement s).calls ∨ g ∈ (Part.block ss).calls := by
  simp [Part.calls, Stmt.allExpressions, allCalls_append]

theorem allOrdinary_test {p : Signature → Prop} {r : Register} {l : Label} (h : l.id?.isSome) :
    AllOrdinary p [Code.test r, Code.jiz l] :=
  .cons (.plain rfl) (allOrdinary_single (.branch .jiz h))

end

def Numbered (l : Option Loop) : Prop := ∀ i, l = some i → i.next.id?.isSome ∧ i.exit.id?.isSome

theorem numbered_some {i : Loop} (hn : i.next.id?.isSome) (he : i.exit.id?.isSome) :
    Numbered (some i) := by
  rintro _ ⟨⟩
  exact ⟨hn, he⟩

theorem ordinary_of_emits {l : Option Loop} {f : Frame} {part : Part} {n n₁ : Nat} {code : Code}
    (hE : Emits l f part n code n₁) : Numbered l → AllOrdinary (· ∈ part.calls) code := by
  induction hE with
  | @int l f n v out =>
    intro hl
    cases out with
    | none => exact allOrdinary_nil
    | some r => exact allOrdinary_single .set
  | unusedName | unusedPlace | noArguments | nil => exact fun _ => allOrdinary_nil
  | name hk => exact fun _ => allOrdinary_valueAt _ _
  | unusedBinary hr hl ihr ihl =>
    intro h
    exact ((ihr h).mono fun g => List.mem_append_right _).append
      ((ihl h).mono fun g => List.mem_append_left _)
  | binary hr hl ihr ihl =>
    intro h
    exact (((((ihr h).mono fun g => List.mem_append_right _).append
      (allOrdinary_single (.plain rfl))).append ((ihl h).mono fun g => List.mem_append_left _)).append
      (allOrdinary_single (.plain rfl))).append (allOrdinary_combination _ _ _ _)
  | addressOf h ih | unusedNot h ih | pointer h ih => exact ih
  | @negate l f n n₁ e out code h ih | @bitNot l f n n₁ e out code h ih
  | @dereference l f n n₁ e out code h ih =>
    intro hl
    refine (ih hl).append ?_
    cases out with
    | none => exact allOrdinary_nil
    | some r => exact allOrdinary_single (.plain rfl)
  | logicalNot h ih =>
    intro hl
    exact ((ih hl).append (allOrdinary_single (.plain rfl))).append (allOrdinary_truthCode .jiz _ _)
  | @call l f n n₁ callee es out code h ih =>
    intro hl
    refine ((((ih hl).mono fun g => List.mem_append_left _).append
      (allOrdinary_single (.call (List.mem_append_right _ (List.mem_singleton.2 rfl))))).append
      ?_).append (allOrdinary_release _ _)
    cases out with
    | none => exact allOrdinary_nil
    | some r => exact allOrdinary_single (.plain rfl)
  | argument h hs ih ihs =>
    intro hl
    exact (((ih hl).mono fun g => List.mem_append_left _).append
      (allOrdinary_single (.plain rfl))).append ((ihs hl).mono fun g => List.mem_append_right _)
  | namePlace hk => exact fun _ => allOrdinary_addressAt _ _
  | ifOnly he hs ihe ihs =>
    intro hl
    exact ((((ihe hl).mono fun g hg => mem_calls_ifElse.2 (.inl hg)).append
      (allOrdinary_test rfl)).append
      ((ihs hl).mono fun g hg => mem_calls_ifElse.2 (.inr (.inl hg)))).append
      (allOrdinary_single (.label rfl))
  | ifElse he hs ht ihe ihs iht =>
    intro hl
    exact ((((((ihe hl).mono fun g hg => mem_calls_ifElse.2 (.inl hg)).append
      (allOrdinary_test rfl)).append
      ((ihs hl).mono fun g hg => mem_calls_ifElse.2 (.inr (.inl hg)))).append
      (.cons (.jump rfl) (allOrdinary_single (.label rfl)))).append
      ((iht hl).mono fun g hg => mem_calls_ifElse.2 (.inr (.inr hg)))).append
      (allOrdinary_single (.label rfl))
  | whileDo he hs ihe ihs =>
    intro hl
    exact ((((allOrdinary_single (.label rfl)).append
      ((ihe hl).mono fun g hg => mem_calls_whileDo.2 (.inl hg))).append (allOrdinary_test rfl)).append
      ((ihs (numbered_some rfl rfl)).mono fun g hg => mem_calls_whileDo.2 (.inr hg))).append
      (.cons (.jump rfl) (allOrdinary_single (.label rfl)))
  | forDo hp hs hc hb ht ihp ihs ihc ihb iht =>
    intro hl
    exact ((((((((((((ihp hl).mono fun g hg => mem_calls_forDo.2 (.inl hg)).append
      (allOrdinary_single (.plain rfl))).append
      ((ihs hl).mono fun g hg => mem_calls_forDo.2 (.inr (.inl hg)))).append
      (.cons (.plain rfl) (allOrdinary_single (.plain rfl)))).append
      (allOrdinary_single (.label rfl))).append
      ((ihc hl).mono fun g hg => mem_calls_forDo.2 (.inr (.inr (.inl hg))))).append
      (allOrdinary_test rfl)).append ((ihb (numbered_some rfl rfl)).mono fun g hg =>
        mem_calls_forDo.2 (.inr (.inr (.inr (.inr hg)))))).append
      (allOrdinary_single (.label rfl))).append
      ((iht hl).mono fun g hg => mem_calls_forDo.2 (.inr (.inr (.inr (.inl hg)))))).append
      (.cons (.plain rfl) (.cons (.plain rfl) (.cons (.plain rfl) (.cons (.plain rfl)
        (allOrdinary_single (.jump rfl))))))).append
      (.cons (.label rfl) (allOrdinary_single (.plain rfl)))
  | retNothing =>
    exact fun _ => (allOrdinary_release _ _).append (allOrdinary_single (.plain rfl))
  | ret h ih =>
    intro hl
    exact (((ih hl).mono fun g hg => List.mem_append_left _ hg).append
      (allOrdinary_release _ _)).append (.cons (.plain rfl) (allOrdinary_single (.plain rfl)))
  | breakLoop => exact fun hl => allOrdinary_single (.jump (hl _ rfl).2)
  | continueLoop => exact fun hl => allOrdinary_single (.jump (hl _ rfl).1)
  | assign hp he ihp ihe =>
    intro hl
    exact ((((ihp hl).mono fun g hg => mem_calls_assign.2 (.inl hg)).append
      (allOrdinary_single (.plain rfl))).append
      ((ihe hl).mono fun g hg => mem_calls_assign.2 (.inr hg))).append
      (.cons (.plain rfl) (allOrdinary_single (.plain rfl)))
  | exec h ih =>
    intro hl
    exact (ih hl).mono fun g hg => List.mem_append_left _ hg
  | cons hs hss ihs ihss =>
    intro hl
    exact ((ihs hl).mono fun g hg => mem_calls_cons.2 (.inl hg)).append
      ((ihss hl).mono fun g hg => mem_calls_cons.2 (.inr hg))

/-! ### Functions -/

theorem mem_firsts {α : Type} [DecidableEq α] {a : α} {as : List α} : a ∈ firsts as ↔ a ∈ as := by
  induction as with
  | nil => simp [firsts]
  | cons b bs ih =>
    by_cases h : a = b <;> simp [firsts, ih, h]

theorem ordinary_of_emitsFunction {f : Function} {n n₁ : Nat} {code : Code}
    (h : EmitsFunction f n code n₁) :
    AllOrdinary (fun g => g = f.signature ∨ g ∈ f.callees) code := by
  obtain ⟨body, hE, rfl⟩ := h
  have hbody := (ordinary_of_emits hE fun i hi => by cases hi).mono
    (q := fun g => g = f.signature ∨ g ∈ f.callees) fun g hg => .inr (mem_firsts.2 hg)
  exact ((((AllOrdinary.cons .blank (allOrdinary_single (.entry (.inl rfl)))).append
    (allOrdinary_reserve _ _)).append hbody).append (allOrdinary_release _ _)).append
    (allOrdinary_single (.plain rfl))

/-- Every function of a program that passes the checks calls functions that are defined. -/
theorem callees_defined_of_check {fs : List Function} (h : check fs = .ok ()) {f : Function}
    (hf : f ∈ fs) {g : Signature} (hg : g ∈ f.callees) : g ∈ defined fs := by
  have hu : undefined? fs = none := by
    rw [check] at h
    split at h
    · cases h
    · split at h
      · cases h
      · assumption
  rw [undefined?, List.findSome?_eq_none_iff] at hu
  have hnone := hu f hf
  rw [Option.map_eq_none_iff, List.find?_eq_none] at hnone
  have hd := hnone g hg
  simpa using hd

theorem main_defined_of_check {fs : List Function} (h : check fs = .ok ()) :
    Signature.main ∈ defined fs := by
  rw [check] at h
  split at h
  · cases h
  · split at h
    · cases h
    · split at h
      · assumption
      · cases h

end WordMachine.Compiler
