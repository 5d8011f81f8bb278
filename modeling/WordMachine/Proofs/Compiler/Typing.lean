import WordMachine.Proofs.Compiler.Fragments
import WordMachine.Proofs.Compiler.Shape

/-!
# Emitted code keeps the shape of the stack

Every part of a function leaves the stack as it found it, arguments apart, and the shapes of its
labels can be chosen so that every jump agrees with the lines it jumps to. The numbers of a part's
labels lie in an interval of its own, so that the choices for parts next to each other never meet.
-/

namespace WordMachine

namespace Source

mutual

/-- The expressions that a statement assigns to, those of the statements in it included. The counter
of a loop is one of them. -/
def Stmt.targets : Stmt → List Expr
  | .ifElse _ body otherwise => Stmt.allTargets body ++ Stmt.allTargets otherwise
  | .whileDo _ body => Stmt.allTargets body
  | .forDo counter _ _ _ body => counter :: Stmt.allTargets body
  | .assign target _ => [target]
  | .ret _ | .breakLoop | .continueLoop | .exec _ => []

def Stmt.allTargets : List Stmt → List Expr
  | [] => []
  | s :: ss => s.targets ++ Stmt.allTargets ss

end

def Direct (es : List Expr) : Prop := ∀ e ∈ es, ∀ p, e ≠ .unary .dereference p

instance (e : Expr) : Decidable (∀ p, e ≠ .unary .dereference p) :=
  match e with
  | .unary .dereference p => isFalse fun h => h p rfl
  | .int _ | .name _ | .binary _ _ _ | .call _ _ | .unary .negate _ | .unary .bitNot _
  | .unary .logicalNot _ | .unary .addressOf _ => isTrue fun _ h => by cases h

instance (es : List Expr) : Decidable (Direct es) :=
  inferInstanceAs (Decidable (∀ e ∈ es, ∀ p, e ≠ .unary .dereference p))

end Source

namespace Compiler

open Assembly Source

/-! ### Choices of shapes -/

/-- Shapes can be chosen for the labels numbered from one number up to another so that a property
holds, whatever the shapes of other labels are. -/
def Fits (n n₁ : Nat) (p : (Nat → List Content) → Prop) : Prop :=
  ∃ g : Nat → List Content, ∀ shapeOf : Nat → List Content,
    (∀ i, n ≤ i → i < n₁ → shapeOf i = g i) → p shapeOf

section

variable {n n₁ n₂ : Nat} {p q : (Nat → List Content) → Prop}

theorem fits_of_forall (h : ∀ shapeOf, p shapeOf) : Fits n n₁ p := ⟨fun _ => [], fun g _ => h g⟩

theorem fits_own (n : Nat) (w : List Content) : Fits n (n + 1) fun shapeOf => shapeOf n = w :=
  ⟨fun _ => w, fun _ h => h n (Nat.le_refl n) (Nat.lt_succ_self n)⟩

theorem Fits.imp (h : Fits n n₁ p) (hpq : ∀ shapeOf, p shapeOf → q shapeOf) : Fits n n₁ q := by
  obtain ⟨g, hg⟩ := h
  exact ⟨g, fun shapeOf hs => hpq _ (hg shapeOf hs)⟩

theorem Fits.and (h : Fits n n₁ p) (h' : Fits n₁ n₂ q) (hn : n ≤ n₁) (hn₁ : n₁ ≤ n₂) :
    Fits n n₂ fun shapeOf => p shapeOf ∧ q shapeOf := by
  obtain ⟨g, hg⟩ := h
  obtain ⟨g', hg'⟩ := h'
  refine ⟨fun i => if i < n₁ then g i else g' i, fun shapeOf hs => ⟨hg _ ?_, hg' _ ?_⟩⟩
  · intro i hi hlt
    exact (hs i hi (by omega)).trans (if_pos hlt)
  · intro i hi hlt
    exact (hs i (by omega) hlt).trans (if_neg (by omega))

theorem Fits.exists (h : Fits n n₁ p) : ∃ shapeOf, p shapeOf := by
  obtain ⟨g, hg⟩ := h
  exact ⟨g, hg g fun _ _ _ => rfl⟩

end

theorem Emits.le {l : Option Loop} {f : Frame} {part : Part} {n n₁ : Nat} {code : Code}
    (h : Emits l f part n code n₁) : n ≤ n₁ := by
  induction h <;> omega

/-! ### Registers -/

def Plain (r : Register) : Prop := r ≠ .stack ∧ r ≠ .instruction

instance (r : Register) : Decidable (Plain r) :=
  inferInstanceAs (Decidable (r ≠ .stack ∧ r ≠ .instruction))

theorem plain_of_general {r : Register} (h : r.General) : Plain r := ⟨h.ne_stack, h.ne_instruction⟩

theorem quiet_of_written {i : Instruction Value} {r : Register} (hw : i.written = [r])
    (hs : i.stores = false) (hr : Plain r) : Quiet i where
  stack := by simpa [hw] using hr.1.symm
  instruction := by simpa [hw] using hr.2.symm
  stores := hs

section

variable {s : Setting} {shapeOf : Nat → List Content} {w : List Content}
  {k : Option (Register × Fact)} {r : Register}

theorem allowed_quiet {i : Instruction Value} (hr : Plain r) (hw : i.written = [r])
    (hs : i.stores = false) : Allowed s shapeOf ⟨w, k⟩ (.instruction i) ⟨w, none⟩ :=
  .quiet (quiet_of_written hw hs hr)

/-! ### Fragments -/

theorem typed_truthCode {jump : Label → Line} {c : Flags → Bool} {id : Nat}
    (hc : Machine.Branches jump c) (hr : Plain r) :
    Typed s shapeOf ⟨shapeOf id, k⟩ (truthCode jump r id) ⟨shapeOf id, none⟩ :=
  .cons (allowed_quiet hr rfl rfl) (.cons (.branch hc rfl)
    (.cons (allowed_quiet hr rfl rfl) (.single (.label (l := .truth id) rfl))))

theorem typed_combination (op : BinaryOp) {id : Nat} {x : Register} (hr : Plain r) (hx : Plain x)
    (hid : labelCount op = 1 → shapeOf id = w) :
    Typed s shapeOf ⟨w, k⟩ (combination op r x id) ⟨w, none⟩ := by
  cases op with
  | equal =>
    cases hid rfl
    exact .cons (allowed_quiet hx rfl rfl) (typed_truthCode .jiz hr)
  | less =>
    cases hid rfl
    exact .cons (allowed_quiet hr rfl rfl) (typed_truthCode .jis hr)
  | greater =>
    cases hid rfl
    exact .cons (allowed_quiet hx rfl rfl) (typed_truthCode .jis hr)
  | add | subtract | bitOr | bitXor | multiply | divide | remainder | bitAnd =>
    exact .single (allowed_quiet hr rfl rfl)

theorem typed_addressAt (n : Nat) (hr : Plain r) :
    Typed s shapeOf ⟨w, k⟩ (addressAt n r) ⟨w, some (r, .slot (w.length - n))⟩ := by
  unfold addressAt
  by_cases hn : n = 0
  · rw [if_pos hn, hn, Int.ofNat_zero, Int.sub_zero]
    exact .single (.top hr.1 hr.2)
  · rw [if_neg hn]
    exact .cons (.number hr.1 hr.2) (.single (.address hr.1 hr.2))

theorem typed_valueAt (n : Nat) (hr : Plain r) :
    Typed s shapeOf ⟨w, k⟩ (valueAt n r) ⟨w, none⟩ := by
  unfold valueAt
  by_cases hn : n = 0
  · rw [if_pos hn]
    exact .single (allowed_quiet hr rfl rfl)
  · rw [if_neg hn]
    exact (typed_addressAt n hr).append (.single (allowed_quiet hr rfl rfl))

theorem typed_release (top : List Content) (hr : Plain r) :
    Typed s shapeOf ⟨top ++ w, none⟩ (Code.release r top.length) ⟨w, none⟩ := by
  unfold Code.release
  by_cases hn : top.length = 0
  · rw [if_pos hn, List.eq_nil_of_length_eq_zero hn]
    exact .nil
  · rw [if_neg hn]
    exact .cons (.number hr.1 hr.2) (.single .release)

theorem typed_reserve (hr : Plain r) :
    Typed s shapeOf ⟨[], none⟩ (Code.reserve r s.locals) ⟨List.replicate s.locals .any, none⟩ := by
  unfold Code.reserve
  by_cases hn : s.locals = 0
  · rw [if_pos hn, hn]
    exact .nil
  · rw [if_neg hn]
    exact .cons (.number hr.1 hr.2) (.single .reserve)

end

/-! ### Places -/

/-- What a register is known to hold if it holds a word of this content. -/
def Content.fact (r : Register) : Content → Option (Register × Fact)
  | any => none
  | slot z => some (r, .slot z)

/-- What is known of the address of an expression. -/
def placeContent (f : Frame) : Expr → Content
  | .name x => ((f.offset? x).map fun k => Content.slot (f.depth - k)).getD .any
  | _ => .any

section

variable {s : Setting} {shapeOf : Nat → List Content} {w : List Content}
  {k : Option (Register × Fact)} {r : Register} {c : Content}

theorem allowed_push (c : Content) (h : s.locals ≤ w.length) :
    Allowed s shapeOf ⟨w, c.fact r⟩ (Code.push r) ⟨c :: w, none⟩ := by
  cases c with
  | any => exact .push h
  | slot z => exact .pushSlot h

theorem allowed_pop (hr : Plain r) : Allowed s shapeOf ⟨c :: w, k⟩ (Code.pop r) ⟨w, c.fact r⟩ := by
  cases c with
  | any => exact .pop hr.1 hr.2
  | slot z => exact .popSlot hr.1 hr.2

theorem allowed_loadTop (hr : Plain r) :
    Allowed s shapeOf ⟨c :: w, k⟩ (Code.load r .stack) ⟨c :: w, c.fact r⟩ := by
  cases c with
  | any => exact allowed_quiet hr rfl rfl
  | slot z => exact .loadSlot hr.1 hr.2

theorem allowed_keep {i : Instruction Value} {q : Register} (hr : Plain r) (hw : i.written = [r])
    (hs : i.stores = false) (hq : q ≠ r) (hi : q ≠ .instruction) :
    Allowed s shapeOf ⟨w, c.fact q⟩ (.instruction i) ⟨w, c.fact q⟩ := by
  cases c with
  | any => exact allowed_quiet hr hw hs
  | slot z => exact .keep (quiet_of_written hw hs hr) (by simpa [hw] using hq) hi

/-- A store through a register is allowed if that holds the address of a variable, or if stores may go
anywhere. -/
theorem allowed_store {b : Register} (h : s.safe → ∃ z, c = .slot z ∧ s.Variable z) :
    Allowed s shapeOf ⟨w, c.fact r⟩ (Code.store r b) ⟨w, none⟩ := by
  refine .store fun hsafe => ?_
  obtain ⟨z, rfl, hz⟩ := h hsafe
  exact ⟨z, rfl, hz⟩

end

theorem lastIndex?_lt {x : String} {names : List String} {i : Nat}
    (h : lastIndex? x names = some i) : i < names.length := by
  induction names generalizing i with
  | nil => cases h
  | cons y ys ih =>
    cases hy : lastIndex? x ys with
    | some j =>
      simp only [lastIndex?, hy, Option.some.injEq] at h
      have hj := ih hy
      simp only [List.length_cons]
      omega
    | none =>
      simp only [lastIndex?, hy] at h
      split at h
      · cases h
        simp
      · cases h

structure Frame.Suits (f : Frame) (s : Setting) : Prop where
  locals : f.locals.length = s.locals
  parameters : f.parameters.length = s.arity

theorem Frame.variable_of_offset? {f : Frame} {s : Setting} {x : String} {k : Nat} (hf : f.Suits s)
    (h : f.offset? x = some k) : s.Variable (f.depth - k) := by
  obtain ⟨i, hi, rfl⟩ := Option.map_eq_some_iff.1 h
  rw [Setting.Variable, ← hf.locals, ← hf.parameters, Frame.depth]
  cases hl : lastIndex? x f.locals with
  | some j =>
    rw [hl] at hi
    cases hi
    have hlt := lastIndex?_lt hl
    omega
  | none =>
    rw [hl, Option.none_or] at hi
    obtain ⟨j, hj, rfl⟩ := Option.map_eq_some_iff.1 hi
    have hlt := lastIndex?_lt hj
    omega

theorem variable_placeContent {l : Option Loop} {f : Frame} {s : Setting} {e : Expr} {r : Register}
    {n n₁ : Nat} {code : Code} (hE : Emits l f (.place e (some r)) n code n₁) (hf : f.Suits s)
    (he : ∀ p, e ≠ .unary .dereference p) : ∃ z, placeContent f e = .slot z ∧ s.Variable z := by
  cases hE with
  | namePlace hk => exact ⟨_, by rw [placeContent, hk]; rfl, Frame.variable_of_offset? hf hk⟩
  | pointer => exact absurd rfl (he _)

/-! ### All parts -/

def LoopShapes (shapeOf : Nat → List Content) (l : Option Loop) (w : List Content) : Prop :=
  ∀ i, l = some i → ∃ a b, i.next.id? = some a ∧ i.exit.id? = some b ∧ shapeOf a = w ∧ shapeOf b = w

def Part.Keeps (s : Setting) (shapeOf : Nat → List Content) (l : Option Loop) (f : Frame)
    (w : List Content) (code : Code) : Part → Prop
  | .value _ out => (∀ r, out = some r → Plain r) → Typed s shapeOf ⟨w, none⟩ code ⟨w, none⟩
  | .arguments es r => Plain r →
    Typed s shapeOf ⟨w, none⟩ code ⟨List.replicate es.length .any ++ w, none⟩
  | .place e out => (∀ r, out = some r → Plain r) →
    Typed s shapeOf ⟨w, none⟩ code ⟨w, out.bind fun r => (placeContent f e).fact r⟩
  | .statement t => (s.safe → Direct t.targets) → LoopShapes shapeOf l w →
    Typed s shapeOf ⟨w, none⟩ code ⟨w, none⟩
  | .block ts => (s.safe → Direct (Stmt.allTargets ts)) → LoopShapes shapeOf l w →
    Typed s shapeOf ⟨w, none⟩ code ⟨w, none⟩

theorem fits_labelCount (op : BinaryOp) (n : Nat) (w : List Content) :
    Fits n (n + labelCount op) fun shapeOf => labelCount op = 1 → shapeOf n = w := by
  by_cases hc : labelCount op = 1
  · rw [hc]
    exact (fits_own n w).imp fun _ h _ => h
  · exact fits_of_forall fun _ h => absurd h hc

theorem Frame.Suits.push {f : Frame} {s : Setting} (h : f.Suits s) (n : Nat) : (f.push n).Suits s :=
  ⟨h.locals, h.parameters⟩

theorem Frame.Suits.locals_le {f : Frame} {s : Setting} {w : List Content} (h : f.Suits s)
    (hw : w.length = f.depth) : s.locals ≤ w.length := by
  rw [hw, Frame.depth, h.locals]
  exact Nat.le_add_right ..

theorem Frame.length_cons_of_depth {f : Frame} {w : List Content} (h : w.length = f.depth)
    (c : Content) : (c :: w).length = (f.push 1).depth := by
  rw [List.length_cons, h]
  exact Nat.add_assoc ..

theorem plain_some {r q : Register} (hr : Plain r) (h : some r = some q) : Plain q := by
  cases h
  exact hr

theorem typed_store {s : Setting} {shapeOf : Nat → List Content} {l : Option Loop} {f : Frame}
    {w : List Content} {e : Expr} {r q b : Register} {n n₁ : Nat} {code : Code}
    (hE : Emits l f (.place e (some q)) n code n₁) (hf : f.Suits s)
    (he : s.safe → ∀ p, e ≠ .unary .dereference p) :
    Allowed s shapeOf ⟨w, (placeContent f e).fact r⟩ (Code.store r b) ⟨w, none⟩ :=
  allowed_store fun hsafe => variable_placeContent hE hf (he hsafe)

theorem typed_test {s : Setting} {shapeOf : Nat → List Content} {k : Option (Register × Fact)}
    {r : Register} {l : Label} {i : Nat} (hr : Plain r) (hi : l.id? = some i) :
    Typed s shapeOf ⟨shapeOf i, k⟩ [Code.test r, Code.jiz l] ⟨shapeOf i, none⟩ :=
  .cons (allowed_quiet hr rfl rfl) (.single (.branch .jiz hi))

/-- The end of a counting loop finds the address of the counter on top of the stack. -/
theorem typed_count {s : Setting} {shapeOf : Nat → List Content} {w : List Content} {c : Content}
    {n : Nat} (hn : shapeOf n = c :: w) (hs : Allowed s shapeOf ⟨c :: w, c.fact countAddress⟩
      (Code.store countAddress countScratch) ⟨c :: w, none⟩) :
    Typed s shapeOf ⟨c :: w, none⟩ [Code.load countAddress .stack, Code.load countScratch countAddress,
      Code.add countScratch countValue, Code.store countAddress countScratch, Code.jmp (.count n)]
      ⟨c :: w, none⟩ := by
  have hjump : Allowed s shapeOf ⟨c :: w, none⟩ (Code.jmp (.count n)) ⟨c :: w, none⟩ := by
    rw [← hn]
    exact .jump rfl
  have hscratch : Plain countScratch := by decide
  exact .cons (allowed_loadTop (by decide)) (.cons (allowed_keep hscratch rfl rfl (by decide) (by decide))
    (.cons (allowed_keep hscratch rfl rfl (by decide) (by decide)) (.cons hs (.single hjump))))

theorem fits_of_emits {s : Setting} {l : Option Loop} {f : Frame} {part : Part} {n n₁ : Nat}
    {code : Code} (hE : Emits l f part n code n₁) :
    ∀ {w : List Content}, w.length = f.depth → f.Suits s →
    Fits n n₁ fun shapeOf => part.Keeps s shapeOf l f w code := by
  induction hE with
  | @int l f n v out =>
    intro w hw hf
    refine fits_of_forall fun shapeOf hr => ?_
    cases out with
    | none => exact .nil
    | some r => exact .single (allowed_quiet (hr r rfl) rfl rfl)
  | unusedName | unusedPlace | noArguments =>
    intro w hw hf
    exact fits_of_forall fun _ _ => .nil
  | nil =>
    intro w hw hf
    exact fits_of_forall fun _ _ _ => .nil
  | name hk =>
    intro w hw hf
    exact fits_of_forall fun shapeOf hr => typed_valueAt _ (hr _ rfl)
  | unusedBinary hr hl ihr ihl =>
    intro w hw hf
    refine ((ihr hw hf).and (ihl hw hf) hr.le hl.le).imp ?_
    rintro shapeOf ⟨h₁, h₂⟩ hp
    exact (h₁ hp).append (h₂ hp)
  | @binary l f n n₁ n₂ op left right r first second hr hl ihr ihl =>
    intro w hw hf
    have h := (ihr hw hf).and (ihl (f.length_cons_of_depth hw .any) (hf.push 1)) hr.le hl.le
    refine (h.and (fits_labelCount op n₂ w) (Nat.le_trans hr.le hl.le) (by omega)).imp ?_
    rintro shapeOf ⟨⟨h₁, h₂⟩, hid⟩ hp
    have hadj := plain_of_general r.general_adjacent
    exact ((((h₁ hp).append (.single (.push (hf.locals_le hw)))).append (h₂ hp)).append
      (.single (.pop hadj.1 hadj.2))).append (typed_combination op (hp r rfl) hadj hid)
  | @addressOf l f n n₁ e out code h ih =>
    intro w hw hf
    refine (ih hw hf).imp fun shapeOf h₁ hp => ?_
    have ht : Typed s shapeOf ⟨w, none⟩ (code ++ []) ⟨w, none⟩ := (h₁ hp).append .forget
    rwa [List.append_nil] at ht
  | @negate l f n n₁ e out code h ih | @bitNot l f n n₁ e out code h ih =>
    intro w hw hf
    refine (ih hw hf).imp fun shapeOf h₁ hp => (h₁ hp).append ?_
    cases out with
    | none => exact .nil
    | some r => exact .single (allowed_quiet (hp r rfl) rfl rfl)
  | unusedNot h ih => exact ih
  | @logicalNot l f n n₁ e r code h ih =>
    intro w hw hf
    refine ((ih hw hf).and (fits_own n₁ w) h.le (by omega)).imp ?_
    rintro shapeOf ⟨h₁, rfl⟩ hp
    have hr := hp r rfl
    exact ((h₁ hp).append (.single (allowed_quiet hr rfl rfl))).append (typed_truthCode .jiz hr)
  | @dereference l f n n₁ e out code h ih =>
    intro w hw hf
    refine (ih hw hf).imp fun shapeOf h₁ hp => (h₁ hp).append ?_
    cases out with
    | none => exact .nil
    | some r => exact .single (allowed_quiet (hp r rfl) rfl rfl)
  | @call l f n n₁ callee es out code h ih =>
    intro w hw hf
    refine (ih hw hf).imp fun shapeOf h₁ hp => ?_
    have ha := h₁ (plain_of_general (Register.general_adjacent _))
    have hcall : ∀ i < es.length, (List.replicate es.length Content.any ++ w)[i]? = some .any := by
      intro i hi
      rw [List.getElem?_append_left (by simpa using hi), List.getElem?_replicate, if_pos hi]
    have hrel : Typed s shapeOf ⟨List.replicate es.length .any ++ w, none⟩
        (Code.release .result (List.replicate es.length Content.any).length) ⟨w, none⟩ :=
      typed_release _ (by decide)
    rw [List.length_replicate] at hrel
    refine ((ha.append (.single (.call hcall))).append ?_).append hrel
    cases out with
    | none => exact .nil
    | some r => exact .single (allowed_quiet (hp r rfl) rfl rfl)
  | @argument l f n n₁ n₂ e es r first rest h hs ih ihs =>
    intro w hw hf
    have h' := (ih hw hf).and (ihs (f.length_cons_of_depth hw .any) (hf.push 1)) h.le hs.le
    refine h'.imp ?_
    rintro shapeOf ⟨h₁, h₂⟩ hr
    have hwords : List.replicate (e :: es).length Content.any ++ w =
        List.replicate es.length .any ++ .any :: w := by
      rw [List.length_cons, List.replicate_succ', List.append_assoc]
      rfl
    rw [hwords]
    exact ((h₁ fun q hq => plain_some hr hq).append (.single (.push (hf.locals_le hw)))).append (h₂ hr)
  | @namePlace l f n x k r hk =>
    intro w hw hf
    refine fits_of_forall fun shapeOf hp => ?_
    have h : Typed s shapeOf ⟨w, none⟩ (addressAt k r) ⟨w, some (r, .slot (w.length - k))⟩ :=
      typed_addressAt k (hp r rfl)
    have hc : (placeContent f (.name x)).fact r = some (r, .slot (w.length - k)) := by
      rw [placeContent, hk, hw]
      rfl
    show Typed s shapeOf _ _ ⟨w, (placeContent f (.name x)).fact r⟩
    rw [hc]
    exact h
  | @pointer l f n n₁ e out code h ih =>
    intro w hw hf
    refine (ih hw hf).imp fun shapeOf h₁ hp => ?_
    cases out <;> exact h₁ hp
  | @ifOnly l f n n₁ n₂ e ss test first he hs ihe ihs =>
    intro w hw hf
    have h := ((fits_own n w).and (ihe hw hf) (by omega) he.le).and (ihs hw hf)
      (Nat.le_trans (by omega) he.le) hs.le
    refine h.imp ?_
    rintro shapeOf ⟨⟨rfl, h₁⟩, h₂⟩ hd hl
    have ht := h₁ fun q hq => plain_some (by decide) hq
    have hb := h₂ (fun hsafe e he => hd hsafe e (by simp [Stmt.targets, Stmt.allTargets, he])) hl
    exact ((ht.append (typed_test (by decide) rfl)).append hb).append (.single (.label (l := .endIf n) rfl))
  | @ifElse l f n n₁ n₂ n₃ e ss t ts test first second he hs ht ihe ihs iht =>
    intro w hw hf
    have hle := Nat.le_trans (Nat.le_add_right n 1) he.le
    have h := (((fits_own n w).and (ihe hw hf) (by omega) he.le).and (ihs hw hf) hle hs.le).and
      (iht hw hf) (Nat.le_trans hle hs.le) ht.le
    refine h.imp ?_
    rintro shapeOf ⟨⟨⟨rfl, h₁⟩, h₂⟩, h₃⟩ hd hl
    have htest := h₁ fun q hq => plain_some (by decide) hq
    have hb := h₂ (fun hsafe e he => hd hsafe e (List.mem_append_left _ he)) hl
    have hc := h₃ (fun hsafe e he => hd hsafe e (List.mem_append_right _ he)) hl
    exact ((((htest.append (typed_test (by decide) rfl)).append hb).append
      (.cons (.jump (l := .endIf n) (w := shapeOf n) rfl)
        (.single (.label (l := .otherwise n) rfl)))).append hc).append
      (.single (.label (l := .endIf n) rfl))
  | @whileDo l f n n₁ n₂ e ss test inner he hs ihe ihs =>
    intro w hw hf
    have h := ((fits_own n w).and (ihe hw hf) (by omega) he.le).and (ihs hw hf)
      (Nat.le_trans (by omega) he.le) hs.le
    refine h.imp ?_
    rintro shapeOf ⟨⟨rfl, h₁⟩, h₂⟩ hd _
    have ht := h₁ fun q hq => plain_some (by decide) hq
    have hloop : LoopShapes shapeOf (some ⟨.loop n, .endLoop n⟩) (shapeOf n) := by
      intro i hi
      cases hi
      exact ⟨n, n, rfl, rfl, rfl, rfl⟩
    have hb := h₂ hd hloop
    exact ((((Typed.single (.label (l := .loop n) rfl)).append ht).append
      (typed_test (by decide) rfl)).append hb).append
      (.cons (.jump (l := .loop n) (w := shapeOf n) rfl)
        (.single (.label (l := .endLoop n) rfl)))
  | @forDo l f n n₁ n₂ n₃ n₄ n₅ counter start condition step ss place first test inner last
      hp hs hc hb ht ihp ihs ihc ihb iht =>
    intro w hw hf
    have hw' := f.length_cons_of_depth hw (placeContent f counter)
    have hf' := hf.push 1
    have h₁ := (fits_own n (placeContent f counter :: w)).and (ihp hw hf) (by omega) hp.le
    have le₁ := Nat.le_trans (Nat.le_add_right n 1) hp.le
    have h₂ := h₁.and (ihs hw' hf') le₁ hs.le
    have le₂ := Nat.le_trans le₁ hs.le
    have h₃ := h₂.and (ihc hw' hf') le₂ hc.le
    have le₃ := Nat.le_trans le₂ hc.le
    have h₄ := h₃.and (ihb hw' hf') le₃ hb.le
    refine (h₄.and (iht hw' hf') (Nat.le_trans le₃ hb.le) ht.le).imp ?_
    rintro shapeOf ⟨⟨⟨⟨⟨hid, tp⟩, ts⟩, tc⟩, tb⟩, tl⟩ hd _
    have hvalue : ∀ q, some countValue = some q → Plain q := fun q hq => plain_some (by decide) hq
    have haddress : ∀ q, some countAddress = some q → Plain q :=
      fun q hq => plain_some (by decide) hq
    have hstore : ∀ r : Register, Allowed s shapeOf ⟨placeContent f counter :: w,
        (placeContent f counter).fact countAddress⟩ (Code.store countAddress r)
        ⟨placeContent f counter :: w, none⟩ :=
      fun r => typed_store hp hf fun hsafe => hd hsafe counter (List.mem_cons_self ..)
    have hloop : LoopShapes shapeOf (some ⟨.nextCount n, .endCount n⟩)
        (placeContent f counter :: w) := by
      intro i hi
      cases hi
      exact ⟨n, n, rfl, rfl, hid, hid⟩
    have hlabel : ∀ {x : Label} {k : Option (Register × Fact)}, x.id? = some n →
        Allowed s shapeOf ⟨placeContent f counter :: w, k⟩ (Code.label x)
          ⟨placeContent f counter :: w, none⟩ := by
      rw [← hid]
      exact .label
    have htest : Typed s shapeOf ⟨placeContent f counter :: w, none⟩
        [Code.test countValue, Code.jiz (.endCount n)] ⟨placeContent f counter :: w, none⟩ := by
      rw [← hid]
      exact typed_test (by decide) rfl
    have tstart := (((tp haddress).append (.single (allowed_push (placeContent f counter) (hf.locals_le hw)))).append
      (ts hvalue)).append (.cons (allowed_loadTop (by decide)) (.single (hstore countValue)))
    have ttest := ((tstart.append (.single (hlabel (x := .count n) rfl))).append (tc hvalue)).append htest
    have tbody := (ttest.append (tb (fun hsafe e he => hd hsafe e (List.mem_cons_of_mem _ he))
      hloop)).append (.single (hlabel (x := .nextCount n) rfl))
    exact ((tbody.append (tl hvalue)).append (typed_count hid (hstore countScratch))).append
      (.cons (hlabel (x := .endCount n) rfl) (.cons (allowed_pop (by decide)) .forget))
  | @retNothing l f n =>
    intro w hw hf
    refine fits_of_forall fun shapeOf _ _ => ?_
    have h : Typed s shapeOf ⟨w ++ [], none⟩ (Code.release .result w.length) ⟨[], none⟩ :=
      typed_release w (by decide)
    rw [List.append_nil, hw] at h
    exact h.append (.single .ret)
  | @ret l f n n₁ e code h ih =>
    intro w hw hf
    refine (ih hw hf).imp fun shapeOf h₁ _ _ => ?_
    have hr : Typed s shapeOf ⟨w ++ [], none⟩ (Code.release .result w.length) ⟨[], none⟩ :=
      typed_release w (by decide)
    rw [List.append_nil, hw] at hr
    exact ((h₁ fun q hq => plain_some (by decide) hq).append hr).append
      (.cons (allowed_quiet (r := .result) (by decide) rfl rfl) (.single .ret))
  | @breakLoop i f n =>
    intro w hw hf
    refine fits_of_forall fun shapeOf _ hl => ?_
    obtain ⟨a, b, _, hb, _, rfl⟩ := hl i rfl
    exact .single (.jump hb)
  | @continueLoop i f n =>
    intro w hw hf
    refine fits_of_forall fun shapeOf _ hl => ?_
    obtain ⟨a, b, ha, _, rfl, _⟩ := hl i rfl
    exact .single (.jump ha)
  | @assign l f n n₁ n₂ target e place code hp he ihp ihe =>
    intro w hw hf
    have hw' := f.length_cons_of_depth hw (placeContent f target)
    refine ((ihp hw hf).and (ihe hw' (hf.push 1)) hp.le he.le).imp ?_
    rintro shapeOf ⟨tp, te⟩ hd _
    have hvalue : ∀ q, some assignValue = some q → Plain q := fun q hq => plain_some (by decide) hq
    have hstore : Allowed s shapeOf ⟨w, (placeContent f target).fact .result⟩
        (Code.store .result assignValue) ⟨w, none⟩ :=
      typed_store hp hf fun hsafe => hd hsafe target (List.mem_singleton.2 rfl)
    exact (((tp hvalue).append (.single (allowed_push (placeContent f target) (hf.locals_le hw)))).append
      (te hvalue)).append (.cons (allowed_pop (by decide)) (.single hstore))
  | exec h ih =>
    intro w hw hf
    exact (ih hw hf).imp fun shapeOf h₁ _ _ => h₁ fun q hq => by cases hq
  | @cons l f n n₁ n₂ t ts first rest h hs ih ihs =>
    intro w hw hf
    refine ((ih hw hf).and (ihs hw hf) h.le hs.le).imp ?_
    rintro shapeOf ⟨h₁, h₂⟩ hd hl
    exact (h₁ (fun hsafe e he => hd hsafe e (List.mem_append_left _ he)) hl).append
      (h₂ (fun hsafe e he => hd hsafe e (List.mem_append_right _ he)) hl)

end Compiler

end WordMachine
