import WordMachine.Proofs.Compiler.Arrangement
import WordMachine.Proofs.Compiler.Discipline

/-!
# Heights of the stack in an expression

The code of an expression never takes off words that it did not push itself, and the code of arguments
leaves one word for each of them, the first one deepest. So a word that was pushed before stays where it
is until the code is at its end.
-/

namespace WordMachine.Compiler

open Assembly Source

/-! ### Lines -/

/-- What a line does to the number of words above some word on the stack, which it leaves alone. A
register may be known to hold a number. -/
inductive Climb : Nat → Option (Register × Nat) → Line → Nat → Option (Register × Nat) → Prop
  | quiet {n q i} : Quiet i → Climb n q (.instruction i) n none
  | set {n q r x} : r ≠ .stack → r ≠ .instruction → Climb n q (Code.set r x) n (some (r, x))
  | release {n j r} : Climb (n + j) (some (r, 4 * j)) (Code.add .stack r) n none
  | push {n q r} : Climb n q (Code.push r) (n + 1) none
  | pop {n q r} : r ≠ .stack → Climb (n + 1) q (Code.pop r) n none
  | call {n q g} : g.arity ≤ n → Climb n q (Code.call (.function g)) n none
  | jiz {n q id} : Climb n q (Code.jiz (.truth id)) n none
  | jis {n q id} : Climb n q (Code.jis (.truth id)) n none
  | label {n q id} : Climb n q (Code.label (.truth id)) n none

/-- The lines do so one after another. -/
inductive Climbs : Nat → Option (Register × Nat) → Code → Nat → Prop
  | nil {n q} : Climbs n q [] n
  | cons {n n₁ k q q₁ line rest} : Climb n q line n₁ q₁ → Climbs n₁ q₁ rest k →
      Climbs n q (line :: rest) k

section

variable {n n₁ j k : Nat} {q q₁ : Option (Register × Nat)} {r x : Register} {line : Line}
  {a b code rest : Code}

theorem Climb.weaken (h : Climb n none line n₁ q₁) : Climb n q line n₁ q₁ := by
  cases h with
  | quiet hq => exact .quiet hq
  | set hr hi => exact .set hr hi
  | push => exact .push
  | pop hr => exact .pop hr
  | call hg => exact .call hg
  | jiz => exact .jiz
  | jis => exact .jis
  | label => exact .label

theorem Climbs.weaken (h : Climbs n none code k) : Climbs n q code k := by
  cases h with
  | nil => exact .nil
  | cons hc hs => exact .cons hc.weaken hs

theorem Climbs.append (h : Climbs n q a j) (h' : Climbs j none b k) : Climbs n q (a ++ b) k := by
  induction h with
  | nil => exact h'.weaken
  | cons hc _ ih => exact .cons hc (ih h')

theorem Climbs.split (h : Climbs n q (a ++ b) k) : ∃ j q₁, Climbs n q a j ∧ Climbs j q₁ b k := by
  induction a generalizing n q with
  | nil => exact ⟨n, q, .nil, h⟩
  | cons line a ih =>
    cases h with
    | cons hc hs =>
      rcases ih hs with ⟨j, q₁, ha, hb⟩
      exact ⟨j, q₁, .cons hc ha, hb⟩

theorem Climbs.single (h : Climb n q line k q₁) : Climbs n q [line] k := .cons h .nil

theorem climb_quiet {i : Instruction Value} (hr : Plain r) (hw : i.written = [r])
    (hs : i.stores = false) : Climb n q (.instruction i) n none :=
  .quiet (quiet_of_written hw hs hr)

/-! ### Fragments -/

theorem climbs_truthCode {jump : Label → Line} {c : Flags → Bool} (hc : Machine.Branches jump c)
    (hr : Plain r) (id n : Nat) : Climbs n q (truthCode jump r id) n := by
  have hjump : ∀ q, Climb n q (jump (.truth id)) n none := by
    cases hc with
    | jiz => exact fun _ => .jiz
    | jis => exact fun _ => .jis
  exact .cons (.set hr.1 hr.2) (.cons (hjump _) (.cons (climb_quiet hr rfl rfl) (.single .label)))

theorem climbs_combination (op : BinaryOp) (hr : Plain r) (hx : Plain x) (id n : Nat) :
    Climbs n none (combination op r x id) n := by
  cases op with
  | equal => exact .cons (climb_quiet hx rfl rfl) (climbs_truthCode .jiz hr id n)
  | less => exact .cons (climb_quiet hr rfl rfl) (climbs_truthCode .jis hr id n)
  | greater => exact .cons (climb_quiet hx rfl rfl) (climbs_truthCode .jis hr id n)
  | add | subtract | bitOr | bitXor | multiply | divide | remainder | bitAnd =>
    exact .single (climb_quiet hr rfl rfl)

theorem climbs_addressAt (d : Nat) (hr : Plain r) (n : Nat) : Climbs n none (addressAt d r) n := by
  unfold addressAt
  split
  · exact .single (climb_quiet hr rfl rfl)
  · exact .cons (.set hr.1 hr.2) (.single (climb_quiet hr rfl rfl))

theorem climbs_valueAt (d : Nat) (hr : Plain r) (n : Nat) : Climbs n none (valueAt d r) n := by
  unfold valueAt
  split
  · exact .single (climb_quiet hr rfl rfl)
  · exact (climbs_addressAt d hr n).append (.single (climb_quiet hr rfl rfl))

theorem climbs_release (hr : Plain r) (n j : Nat) : Climbs (n + j) none (Code.release r j) n := by
  unfold Code.release
  split
  · next hj =>
    rw [hj]
    exact .nil
  · exact .cons (.set hr.1 hr.2) (.single .release)

/-! ### Shapes -/

/-- If a register is known to hold a number, it is this one. -/
def Agrees (q : Option (Register × Nat)) (k : Option (Register × Fact)) : Prop :=
  ∀ r x r' y, q = some (r, x) → k = some (r', .number y) → x = y

theorem agrees_none (k : Option (Register × Fact)) : Agrees none k := by
  intro r x r' y hq
  cases hq

theorem agrees_unknown (q : Option (Register × Nat)) : Agrees q none := by
  intro r x r' y _ hk
  cases hk

theorem Climb.of_label {name : String} (h : Climb n q (.label name) n₁ q₁) :
    n₁ = n ∧ q₁ = none := by
  cases h
  exact ⟨rfl, rfl⟩

theorem Climb.of_xor (h : Climb n q (Code.xor r x) n₁ q₁) : n₁ = n := by
  cases h
  rfl

theorem Climb.exists_truth {l : Label} (h : Climb n q (Code.label l) n₁ q₁) :
    ∃ id, l = .truth id := by
  generalize hline : Code.label l = line at h
  cases h with
  | @label n q id => exact ⟨id, Label.eq_of_text rfl (Line.label.inj hline)⟩
  | _ => cases hline

theorem Climb.of_reference {name : String} (h : Climb n q line n₁ q₁)
    (hr : line.reference? = some name) : n₁ = n := by
  cases h with
  | quiet | call | jiz | jis => rfl
  | set | release | push | pop | label => cases hr

theorem Climb.of_call {g : Signature} (h : Climb n q (Code.call (.function g)) n₁ q₁) :
    g.arity ≤ n := by
  generalize hline : Code.call (.function g) = line at h
  cases h with
  | quiet hquiet =>
    cases hline
    exact absurd hquiet.stack (by simp [Instruction.written])
  | @call n q g' hg =>
    rwa [eq_of_call_eq hline]
  | _ => cases hline

/-- The shapes of the stack are as high as the lines say. -/
theorem Climb.words {s : Setting} {shapeOf : Nat → List Content} {σ σ₁ : Shape} {d : Nat}
    (h : Climb n q line n₁ q₁) (ha : Allowed s shapeOf σ line σ₁) (hq : Agrees q σ.known)
    (hd : σ.words.length = d + n) : σ₁.words.length = d + n₁ ∧ Agrees q₁ σ₁.known := by
  cases ha with
  | blank => cases h
  | label | entry =>
    rw [(Climb.of_label h).1]
    exact ⟨hd, agrees_unknown _⟩
  | call =>
    rw [h.of_reference rfl]
    exact ⟨hd, agrees_unknown _⟩
  | branch hb =>
    rw [h.of_reference (by cases hb <;> rfl)]
    exact ⟨hd, agrees_unknown _⟩
  | number =>
    cases h with
    | quiet => exact ⟨hd, agrees_none _⟩
    | set =>
      refine ⟨hd, ?_⟩
      rintro _ _ _ _ ⟨⟩ ⟨⟩
      rfl
  | @release top w r =>
    cases h with
    | quiet hquiet => exact absurd hquiet.stack (by simp [Instruction.written, Operands.first?])
    | @release _ j =>
      have hj := hq r (4 * j) r (4 * top.length) rfl rfl
      rw [List.length_append] at hd
      exact ⟨show w.length = _ by omega, agrees_none _⟩
  | address hr =>
    cases h with
    | quiet => exact ⟨hd, agrees_none _⟩
    | release => exact absurd rfl hr
  | push | pushSlot =>
    cases h with
    | quiet hquiet => exact absurd hquiet.stack (by simp [Instruction.written])
    | push => exact ⟨by rw [List.length_cons, hd, Nat.add_assoc], agrees_none _⟩
  | @pop c w | @popSlot z w =>
    cases h with
    | quiet hquiet => exact absurd hquiet.stack (by simp [Instruction.written])
    | pop =>
      rw [List.length_cons] at hd
      exact ⟨show w.length = _ by omega, agrees_none _⟩
  | top | loadSlot | store =>
    cases h with
    | quiet => exact ⟨hd, agrees_none _⟩
  | reserve | ret =>
    cases h with
    | quiet hquiet => exact absurd hquiet.stack (by simp [Instruction.written, Operands.first?])
  | jump =>
    cases h with
    | quiet hquiet => exact absurd hquiet.instruction (by simp [Instruction.written])
  | quiet hquiet | keep hquiet =>
    cases h with
    | quiet => exact ⟨hd, agrees_none _⟩
    | set =>
      refine ⟨hd, ?_⟩
      rintro _ _ _ _ _ ⟨⟩
    | release => exact absurd hquiet.stack (by simp [Instruction.written, Operands.first?])
    | push | pop | call => exact absurd hquiet.stack (by simp [Instruction.written])
    | jiz | jis => exact absurd hquiet.instruction (by simp [Instruction.written])

end

/-! ### Expressions -/

/-- What the code of a part does to the number of words above a word that was there before. -/
def Part.Climbs (code : Code) : Part → Prop
  | .value _ out | .place _ out => (∀ r, out = some r → Plain r) → ∀ n, Compiler.Climbs n none code n
  | .arguments es r => Plain r → ∀ n, Compiler.Climbs n none code (n + es.length)
  | .statement _ | .block _ => True

theorem climbs_of_emits {l : Option Loop} {f : Frame} {part : Part} {n n₁ : Nat} {code : Code}
    (hE : Emits l f part n code n₁) : part.Climbs code := by
  induction hE with
  | @int l f n v out =>
    intro hp n
    cases out with
    | none => exact .nil
    | some r => exact .single (climb_quiet (hp r rfl) rfl rfl)
  | unusedName | unusedPlace | noArguments => exact fun _ n => .nil
  | name hk => exact fun hp n => climbs_valueAt _ (hp _ rfl) n
  | namePlace hk => exact fun hp n => climbs_addressAt _ (hp _ rfl) n
  | unusedBinary hr hl ihr ihl => exact fun hp n => (ihr hp n).append (ihl hp n)
  | @binary l f n n₁ n₂ op left right r first second hr hl ihr ihl =>
    intro hp n
    have hx := plain_of_general r.general_adjacent
    exact (((((ihr hp n).append (.single .push)).append (ihl hp (n + 1))).append
      (.single (.pop hx.1))).append (climbs_combination op (hp r rfl) hx _ n))
  | addressOf h ih | unusedNot h ih | pointer h ih => exact ih
  | @negate l f n n₁ e out code h ih | @bitNot l f n n₁ e out code h ih
  | @dereference l f n n₁ e out code h ih =>
    intro hp n
    refine (ih hp n).append ?_
    cases out with
    | none => exact .nil
    | some r => exact .single (climb_quiet (hp r rfl) rfl rfl)
  | @logicalNot l f n n₁ e r code h ih =>
    intro hp n
    exact ((ih hp n).append (.single (climb_quiet (hp r rfl) rfl rfl))).append
      (climbs_truthCode .jiz (hp r rfl) _ n)
  | @call l f n n₁ callee es out code h ih =>
    intro hp n
    have hr := plain_of_general (Register.general_adjacent (out.getD .result))
    refine (((ih hr n).append (.single (.call (Nat.le_add_left ..)))).append ?_).append
      (climbs_release (by decide) n es.length)
    cases out with
    | none => exact .nil
    | some r => exact .single (climb_quiet (hp r rfl) rfl rfl)
  | @argument l f n n₁ n₂ e es r first rest h hs ih ihs =>
    intro hr n
    have hrest := ihs hr (n + 1)
    rw [Nat.add_assoc, Nat.add_comm 1] at hrest
    exact ((ih (fun q hq => plain_some hr hq) n).append (.single .push)).append hrest
  | ifOnly | ifElse | whileDo | forDo | retNothing | ret | breakLoop | continueLoop | assign | exec
  | nil | cons => exact trivial

/-! ### Arguments -/

theorem exists_emits_of_arguments {l : Option Loop} {f : Frame} {es es' : List Expr} {e : Expr}
    {r : Register} {n n₁ : Nat} {code : Code}
    (hE : Emits l f (.arguments (es ++ e :: es') r) n code n₁) : ∃ a c b n₂ n₃ n₄,
    code = a ++ c ++ Code.push r :: b ∧ Emits l f (.arguments es r) n a n₂ ∧
      Emits l (f.push es.length) (.value e (some r)) n₂ c n₃ ∧
      Emits l (f.push (es.length + 1)) (.arguments es' r) n₃ b n₄ := by
  induction es generalizing f n code with
  | nil =>
    cases hE with
    | @argument _ _ _ n₃ _ _ _ _ first rest h hs =>
      exact ⟨[], first, rest, n, n₃, n₁, by simp, .noArguments, h, hs⟩
  | cons d es ih =>
    cases hE with
    | @argument _ _ _ n₀ _ _ _ _ first rest h hs =>
      obtain ⟨a, c, b, n₂, n₃, n₄, rfl, ha, hc, hb⟩ := ih hs
      rw [Frame.push_push] at hc hb
      refine ⟨first ++ [Code.push r] ++ a, c, b, n₂, n₃, n₄, by simp, .argument h ha, ?_, ?_⟩
      · rw [List.length_cons, Nat.add_comm]
        exact hc
      · rw [List.length_cons, Nat.add_comm es.length]
        exact hb

end WordMachine.Compiler
