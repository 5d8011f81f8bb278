import WordMachine.Proofs.Compiler.Emission
import WordMachine.Proofs.Compiler.Shape

/-!
# Jumps of emitted code

Numbered labels have texts of their own, and the jumps of a function go to labels that it declares.
-/

namespace WordMachine.Compiler

open Assembly Source

/-! ### Texts of labels -/

theorem eq_of_toDigits_eq {n m : Nat} (h : Nat.toDigits 10 n = Nat.toDigits 10 m) : n = m := by
  have hn := Numeral.natural?_repr n
  rw [Nat.toList_repr, h, ← Nat.toList_repr, Numeral.natural?_repr] at hn
  exact (Option.some.inj hn).symm

theorem toDigits_ne_cons (n : Nat) {c : Char} (hc : c.isDigit = false) (cs : List Char) :
    Nat.toDigits 10 n ≠ c :: cs := by
  intro h
  have hd := Nat.isDigit_of_mem_toDigits (b := 10) (n := n) (c := c) (by decide) (by decide)
    (by simp [h])
  rw [hc] at hd
  cases hd

theorem Label.eq_of_text {l l' : Label} {i : Nat} (hi : l.id? = some i) (h : l'.text = l.text) :
    l' = l := by
  have hl : l'.text.toList = l.text.toList := by rw [h]
  cases l <;> cases hi <;> cases l' <;> simp [Label.text] at hl
  case truth.refl.loop => exact absurd hl.symm (toDigits_ne_cons _ (by decide) _)
  case loop.refl.truth => exact absurd hl (toDigits_ne_cons _ (by decide) _)
  all_goals rw [eq_of_toDigits_eq hl]

theorem eq_of_append_cons {α : Type} {a : α} {xs ys l k : List α} (hx : a ∉ xs) (hy : a ∉ ys)
    (h : xs ++ a :: l = ys ++ a :: k) : xs = ys := by
  induction xs generalizing ys with
  | nil =>
    cases ys with
    | nil => rfl
    | cons y ys =>
      cases h
      simp at hy
  | cons x xs ih =>
    cases ys with
    | nil =>
      cases h
      simp at hx
    | cons y ys =>
      simp only [List.mem_cons, not_or] at hx hy
      simp only [List.cons_append, List.cons.injEq] at h
      rw [h.1, ih hx.2 hy.2 h.2]

/-- The number at the end of a function's label begins after the last underscore. -/
theorem eq_of_text_function {g g' : Signature} (h : (Label.function g').text = (Label.function g).text) :
    g' = g := by
  have hu : ∀ n : Nat, '_' ∉ (Nat.toDigits 10 n).reverse := by
    intro n hm
    rw [List.mem_reverse] at hm
    exact absurd (Nat.isDigit_of_mem_toDigits (b := 10) (by decide) (by decide) hm) (by decide)
  have hl := congrArg (fun s => s.toList.reverse) h
  simp only [Label.text, String.toList_append, List.reverse_append, Nat.toList_repr] at hl
  have hs : "_".toList.reverse = ['_'] := rfl
  rw [hs, List.singleton_append, List.singleton_append] at hl
  have hd := eq_of_append_cons (hu g'.arity) (hu g.arity) hl
  rw [hd, List.append_cancel_left_eq, List.cons.injEq, List.append_cancel_right_eq] at hl
  have hn : g'.name = g.name := String.toList_inj.1 (List.reverse_inj.1 hl.2)
  have ha : g'.arity = g.arity := eq_of_toDigits_eq (List.reverse_inj.1 hd)
  rcases g with ⟨name, arity⟩
  rcases g' with ⟨name', arity'⟩
  cases hn
  cases ha
  rfl

theorem eq_of_call_eq {g g' : Signature}
    (h : Code.call (.function g) = Code.call (.function g')) : g = g' := by
  have hx := (Instruction.mk.inj (Line.instruction.inj h)).2
  exact eq_of_text_function (Value.label.inj (Operands.label.inj (eq_of_heq hx)))

/-! ### Targets -/

/-- The label that a line jumps to, other than by a call. -/
def jumpTarget? : Line → Option String
  | .instruction ⟨.jmp, .label (.label name)⟩ => some name
  | .instruction ⟨.jiz, .label (.label name)⟩ => some name
  | .instruction ⟨.jis, .label (.label name)⟩ => some name
  | _ => none

/-- The lines jump to labels with this property alone. -/
def Targets (p : String → Prop) (code : Code) : Prop :=
  ∀ line ∈ code, ∀ name, jumpTarget? line = some name → p name

section

variable {p q : String → Prop} {a b code : Code} {line : Line}

theorem targets_nil : Targets p [] := by
  intro line hl
  cases hl

theorem Targets.append (ha : Targets p a) (hb : Targets p b) : Targets p (a ++ b) := by
  intro line hl
  cases List.mem_append.1 hl with
  | inl h => exact ha line h
  | inr h => exact hb line h

theorem Targets.mono (h : Targets p code) (hpq : ∀ name, p name → q name) : Targets q code :=
  fun line hl name hn => hpq name (h line hl name hn)

theorem targets_single (h : ∀ name, jumpTarget? line = some name → p name) : Targets p [line] := by
  intro l hl
  cases List.mem_singleton.1 hl
  exact h

theorem Targets.cons (hl : jumpTarget? line = none) (h : Targets p code) :
    Targets p (line :: code) := by
  have hs : Targets p [line] := by
    refine targets_single fun name hn => ?_
    rw [hl] at hn
    cases hn
  exact hs.append h

theorem targets_jump {l : Label} (h : p l.text) : Targets p [Code.jmp l] := by
  refine targets_single fun name hn => ?_
  cases hn
  exact h

theorem targets_test {l : Label} (r : Register) (h : p l.text) :
    Targets p [Code.test r, Code.jiz l] := by
  refine .cons rfl (targets_single fun name hn => ?_)
  cases hn
  exact h

theorem targets_addressAt (n : Nat) (r : Register) : Targets p (addressAt n r) := by
  unfold addressAt
  split
  · exact .cons rfl targets_nil
  · exact .cons rfl (.cons rfl targets_nil)

theorem targets_valueAt (n : Nat) (r : Register) : Targets p (valueAt n r) := by
  unfold valueAt
  split
  · exact .cons rfl targets_nil
  · exact (targets_addressAt n r).append (.cons rfl targets_nil)

theorem targets_release (r : Register) (n : Nat) : Targets p (Code.release r n) := by
  unfold Code.release
  split
  · exact targets_nil
  · exact .cons rfl (.cons rfl targets_nil)

theorem targets_reserve (r : Register) (n : Nat) : Targets p (Code.reserve r n) := by
  unfold Code.reserve
  split
  · exact targets_nil
  · exact .cons rfl (.cons rfl targets_nil)

end

/-- The name is that of a label of the code or of the loop around it. -/
def Known (l : Option Loop) (code : Code) (name : String) : Prop :=
  .label name ∈ code ∨ ∃ i, l = some i ∧ (name = i.next.text ∨ name = i.exit.text)

theorem Known.left {l : Option Loop} {a : Code} {name : String} (h : Known l a name) (b : Code) :
    Known l (a ++ b) name :=
  h.imp (List.mem_append_left b) id

theorem Known.right {l : Option Loop} {b : Code} {name : String} (h : Known l b name) (a : Code) :
    Known l (a ++ b) name :=
  h.imp (List.mem_append_right a) id

theorem Targets.within {l : Option Loop} {a b : Code} (h : Targets (Known l a) a)
    (hab : ∀ line ∈ a, line ∈ b) : Targets (Known l b) a :=
  h.mono fun _ hn => hn.imp (hab _) id

/-- The code of a loop declares the labels of the loop, to which the code inside may jump. -/
theorem Targets.looped {l : Option Loop} {i : Loop} {a b : Code} (h : Targets (Known (some i) a) a)
    (hab : ∀ line ∈ a, line ∈ b) (hnext : Code.label i.next ∈ b) (hexit : Code.label i.exit ∈ b) :
    Targets (Known l b) a := by
  refine h.mono fun name hn => .inl ?_
  obtain hm | ⟨_, hi, rfl | rfl⟩ := hn
  · exact hab _ hm
  · cases hi
    exact hnext
  · cases hi
    exact hexit

theorem Targets.both {l : Option Loop} {a b : Code} (ha : Targets (Known l a) a)
    (hb : Targets (Known l b) b) : Targets (Known l (a ++ b)) (a ++ b) :=
  (ha.mono fun _ h => h.left b).append (hb.mono fun _ h => h.right a)

/-! ### All parts -/

theorem targets_truthCode {jump : Label → Line} {c : Flags → Bool} (hc : Machine.Branches jump c)
    (l : Option Loop) (r : Register) (id : Nat) :
    Targets (Known l (truthCode jump r id)) (truthCode jump r id) := by
  have hl : Known l (truthCode jump r id) (Label.truth id).text :=
    .inl (by simp [truthCode, Code.label])
  refine .cons rfl ((targets_single ?_).append (a := [jump (.truth id)]) (.cons rfl (.cons rfl targets_nil)))
  intro name hn
  cases hc <;> cases hn <;> exact hl

theorem targets_combination (l : Option Loop) (op : BinaryOp) (r x : Register) (id : Nat) :
    Targets (Known l (combination op r x id)) (combination op r x id) := by
  cases op with
  | equal => exact .both (a := [Code.xor x r]) (.cons rfl targets_nil) (targets_truthCode .jiz l r id)
  | less => exact .both (a := [Code.sub r x]) (.cons rfl targets_nil) (targets_truthCode .jis l r id)
  | greater => exact .both (a := [Code.sub x r]) (.cons rfl targets_nil) (targets_truthCode .jis l r id)
  | add | subtract | bitOr | bitXor | multiply | divide | remainder | bitAnd =>
    exact .cons rfl targets_nil

/-- Every jump of the code of a part goes to a label of that code, or of the loop around it. -/
theorem targets_of_emits {l : Option Loop} {f : Frame} {part : Part} {n n₁ : Nat} {code : Code}
    (hE : Emits l f part n code n₁) : Targets (Known l code) code := by
  induction hE with
  | @int l f n v out =>
    cases out with
    | none => exact targets_nil
    | some r => exact .cons rfl targets_nil
  | unusedName | unusedPlace | noArguments | nil => exact targets_nil
  | name hk => exact targets_valueAt _ _
  | unusedBinary hr hl ihr ihl => exact ihr.both ihl
  | binary hr hl ihr ihl =>
    exact (((ihr.both (.cons rfl targets_nil)).both ihl).both (.cons rfl targets_nil)).both
      (targets_combination _ _ _ _ _)
  | addressOf h ih | unusedNot h ih | pointer h ih | exec h ih => exact ih
  | @negate l f n n₁ e out code h ih | @bitNot l f n n₁ e out code h ih
  | @dereference l f n n₁ e out code h ih =>
    refine ih.both ?_
    cases out with
    | none => exact targets_nil
    | some r => exact .cons rfl targets_nil
  | logicalNot h ih => exact (ih.both (.cons rfl targets_nil)).both (targets_truthCode .jiz _ _ _)
  | @call l f n n₁ callee es out code h ih =>
    refine ((ih.both (.cons rfl targets_nil)).both ?_).both (targets_release _ _)
    cases out with
    | none => exact targets_nil
    | some r => exact .cons rfl targets_nil
  | argument h hs ih ihs => exact (ih.both (.cons rfl targets_nil)).both ihs
  | namePlace hk => exact targets_addressAt _ _
  | ifOnly he hs ihe ihs =>
    exact (((ihe.within (by simp +contextual)).append
      (targets_test _ (.inl (by simp [Code.label])))).append
      (ihs.within (by simp +contextual))).append (.cons rfl targets_nil)
  | ifElse he hs ht ihe ihs iht =>
    exact (((((ihe.within (by simp +contextual)).append
      (targets_test _ (.inl (by simp [Code.label])))).append
      (ihs.within (by simp +contextual))).append
      ((targets_jump (.inl (by simp [Code.label]))).append (b := [_]) (.cons rfl targets_nil))).append
      (iht.within (by simp +contextual))).append (.cons rfl targets_nil)
  | @whileDo l f n n₁ n₂ e ss test inner he hs ihe ihs =>
    exact ((((Targets.cons rfl targets_nil).append (a := [_]) (ihe.within (by simp +contextual))).append
      (targets_test _ (.inl (by simp [Code.label])))).append
      (ihs.looped (by simp +contextual) (by simp [Code.label]) (by simp [Code.label]))).append
      ((targets_jump (.inl (by simp [Code.label]))).append (b := [_]) (.cons rfl targets_nil))
  | forDo hp hs hc hb ht ihp ihs ihc ihb iht =>
    exact (((((((((((ihp.within (by simp +contextual)).append (.cons rfl targets_nil)).append
      (ihs.within (by simp +contextual))).append (.cons rfl (.cons rfl targets_nil))).append
      (.cons rfl targets_nil)).append (ihc.within (by simp +contextual))).append
      (targets_test _ (.inl (by simp [Code.label])))).append
      (ihb.looped (by simp +contextual) (by simp [Code.label]) (by simp [Code.label]))).append
      (.cons rfl targets_nil)).append (iht.within (by simp +contextual))).append
      (.cons rfl (.cons rfl (.cons rfl (.cons rfl (targets_jump (.inl (by simp [Code.label])))))))).append
      (.cons rfl (.cons rfl targets_nil))
  | retNothing => exact (targets_release _ _).append (.cons rfl targets_nil)
  | ret h ih => exact (ih.both (targets_release _ _)).both (.cons rfl (.cons rfl targets_nil))
  | @breakLoop i f n => exact targets_jump (.inr ⟨i, rfl, .inr rfl⟩)
  | @continueLoop i f n => exact targets_jump (.inr ⟨i, rfl, .inl rfl⟩)
  | assign hp he ihp ihe =>
    exact ((ihp.both (.cons rfl targets_nil)).both ihe).both (.cons rfl (.cons rfl targets_nil))
  | cons hs hss ihs ihss => exact ihs.both ihss

end WordMachine.Compiler
