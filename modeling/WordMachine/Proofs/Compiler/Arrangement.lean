import WordMachine.Proofs.Assembly.Layout
import WordMachine.Proofs.Compiler.Jumps
import WordMachine.Proofs.Compiler.Typing
import WordMachine.Proofs.Splits

/-!
# Where the lines of emitted code stand

A jump to the label of a truth value leads over one line, and a call stands between the code of its
arguments and the lines that take their values off the stack. The code of an expression never goes below
the stack that it found, and the code of arguments leaves one word for each of them.
-/

namespace WordMachine.Compiler

open Assembly Source

/-! ### Lines among others -/

/-- What stands around a call: before it the code of its arguments, which are pushed through a scratch
register, and after it the lines that move the result and take the arguments off the stack. -/
structure CallSite (g : Signature) (before after : Code) where
  arguments : List Expr
  out : Option Register
  front : Code
  code : Code
  back : Code
  emits : ∃ l f n n₁, Emits l f (.arguments arguments (out.getD .result).adjacent) n code n₁
  length : arguments.length = g.arity
  plain : ∀ q, out = some q → Plain q
  before_eq : before = front ++ code
  after_eq : after =
    (out.map fun q => Code.mov q .result).toList ++ Code.release .result g.arity ++ back

namespace CallSite

variable {g : Signature} {before after : Code}

def scratch (s : CallSite g before after) : Register := (s.out.getD .result).adjacent

/-- The lines that move the result and take the arguments off the stack. -/
def cleanup (s : CallSite g before after) : Code :=
  (s.out.map fun q => Code.mov q .result).toList ++ Code.release .result g.arity

def widen (s : CallSite g before after) (front back : Code) :
    CallSite g (front ++ before) (after ++ back) where
  arguments := s.arguments
  out := s.out
  front := front ++ s.front
  code := s.code
  back := s.back ++ back
  emits := s.emits
  length := s.length
  plain := s.plain
  before_eq := (congrArg (front ++ ·) s.before_eq).trans (List.append_assoc ..).symm
  after_eq := (congrArg (· ++ back) s.after_eq).trans (List.append_assoc ..)

theorem expression (s : CallSite g before after) : ∃ l f n n₁, Emits l f
    (.value (.call g.name s.arguments) s.out) n
    (s.code ++ [Code.call (.function g)] ++ s.cleanup) n₁ := by
  obtain ⟨l, f, n, n₁, hE⟩ := s.emits
  have h : Emits l f (.value (.call g.name s.arguments) s.out) n
      (s.code ++ [Code.call (.function ⟨g.name, s.arguments.length⟩)] ++
        (s.out.map fun q => Code.mov q .result).toList ++
          Code.release .result s.arguments.length) n₁ := .call hE
  rw [s.length, List.append_assoc] at h
  exact ⟨l, f, n, n₁, h⟩

end CallSite

/-- What stands around a line that refers to a label. -/
structure Orderly (before : Code) (line : Line) (after : Code) : Prop where
  truth : ∀ id, jumpTarget? line = some (Label.truth id).text →
    ∃ r rest, after = Code.xor r r :: Code.label (.truth id) :: rest
  call : ∀ g, line = Code.call (.function g) → Nonempty (CallSite g before after)

def Arranged (code : Code) : Prop :=
  ∀ before line after, code = before ++ line :: after → Orderly before line after

section

variable {before after a b code : Code} {line : Line}

theorem Orderly.widen (h : Orderly before line after) (front back : Code) :
    Orderly (front ++ before) line (after ++ back) where
  truth id hid := by
    obtain ⟨r, rest, rfl⟩ := h.truth id hid
    exact ⟨r, rest ++ back, rfl⟩
  call g hg := by
    rcases h.call g hg with ⟨s⟩
    exact ⟨s.widen front back⟩

theorem reference?_of_jumpTarget? {name : String} (h : jumpTarget? line = some name) :
    line.reference? = some name := by
  unfold jumpTarget? at h
  split at h <;> cases h <;> rfl

theorem orderly_of_reference? (h : line.reference? = none) : Orderly before line after where
  truth id hid := by
    rw [reference?_of_jumpTarget? hid] at h
    cases h
  call g hg := by
    rw [hg] at h
    cases h

theorem Arranged.append (ha : Arranged a) (hb : Arranged b) : Arranged (a ++ b) := by
  intro before line after h
  obtain ⟨rest, ha', rfl⟩ | ⟨rest, rfl, hb'⟩ := append_eq_append_cons h
  · exact (ha before line rest ha').widen [] b
  · have hw := (hb rest line after hb').widen a []
    rwa [List.append_nil] at hw

theorem arranged_of_references (h : references code = []) : Arranged code := by
  rintro before line after rfl
  refine orderly_of_reference? ?_
  rw [references, List.filterMap_append, List.append_eq_nil_iff, List.filterMap_cons] at h
  cases hl : line.reference? with
  | none => rfl
  | some name =>
    rw [hl] at h
    cases h.2

theorem Arranged.cons (h : Orderly [] line code) (hc : Arranged code) : Arranged (line :: code) := by
  intro before line' after hsplit
  cases before with
  | nil =>
    cases hsplit
    exact h
  | cons l before =>
    cases hsplit
    have hw := (hc before line' after rfl).widen [line] []
    rwa [List.append_nil] at hw

theorem arranged_jump (jump : Label → Line) {l : Label} (ht : jumpTarget? (jump l) = some l.text)
    (hl : ∀ id, l ≠ .truth id) : Arranged [jump l] := by
  refine .cons ⟨fun id hid => ?_, fun g hg => ?_⟩ (arranged_of_references rfl)
  · rw [ht] at hid
    exact absurd (Label.eq_of_text (l := .truth id) rfl (Option.some.inj hid)) (hl id)
  · rw [hg] at ht
    cases ht

theorem arranged_truthCode {jump : Label → Line} {c : Flags → Bool} (hc : Machine.Branches jump c)
    (r : Register) (id : Nat) : Arranged (truthCode jump r id) := by
  have hjump : jumpTarget? (jump (.truth id)) = some (Label.truth id).text := by cases hc <;> rfl
  refine .cons (orderly_of_reference? rfl) (.cons ⟨fun id' hid => ?_, fun g hg => ?_⟩
    (arranged_of_references rfl))
  · rw [hjump] at hid
    cases Label.eq_of_text (l := .truth id') rfl (Option.some.inj hid)
    exact ⟨r, [], rfl⟩
  · rw [hg] at hjump
    cases hjump

theorem references_addressAt (k : Nat) (r : Register) : references (addressAt k r) = [] := by
  unfold addressAt
  split <;> rfl

theorem references_valueAt (k : Nat) (r : Register) : references (valueAt k r) = [] := by
  unfold valueAt
  split
  · rfl
  · rw [references_append, references_addressAt]
    rfl

theorem references_release (r : Register) (k : Nat) : references (Code.release r k) = [] := by
  unfold Code.release
  split <;> rfl

theorem references_reserve (r : Register) (k : Nat) : references (Code.reserve r k) = [] := by
  unfold Code.reserve
  split <;> rfl

theorem Arranged.plain (ha : Arranged a) (hb : references b = []) : Arranged (a ++ b) :=
  ha.append (arranged_of_references hb)

theorem Arranged.preceded (hb : Arranged b) (ha : references a = []) : Arranged (a ++ b) :=
  (arranged_of_references ha).append hb

theorem arranged_combination (op : BinaryOp) (r x : Register) (id : Nat) :
    Arranged (combination op r x id) := by
  have hxor : references [Code.xor x r] = [] := rfl
  have hless : references [Code.sub r x] = [] := rfl
  have hgreater : references [Code.sub x r] = [] := rfl
  cases op with
  | equal => exact (arranged_truthCode .jiz r id).preceded hxor
  | less => exact (arranged_truthCode .jis r id).preceded hless
  | greater => exact (arranged_truthCode .jis r id).preceded hgreater
  | add | subtract | bitOr | bitXor | multiply | divide | remainder | bitAnd =>
    exact arranged_of_references rfl

end

/-! ### All parts -/

/-- The labels of a loop are not those of truth values. -/
def Apart (l : Option Loop) : Prop := ∀ i, l = some i → ∀ id, i.next ≠ .truth id ∧ i.exit ≠ .truth id

/-- The code of a part is arranged, if the part uses registers that it may use and jumps to no labels of
truth values outside. -/
def Part.Arranges (l : Option Loop) (code : Code) : Part → Prop
  | .value _ out | .place _ out => (∀ r, out = some r → Plain r) → Arranged code
  | .arguments _ r => Plain r → Arranged code
  | .statement _ | .block _ => Apart l → Arranged code

theorem arranged_test (r : Register) {l : Label} (hl : ∀ id, l ≠ .truth id) :
    Arranged [Code.test r, Code.jiz l] :=
  .cons (orderly_of_reference? rfl) (arranged_jump Code.jiz rfl hl)

theorem arranged_jump_label {l : Label} (l' : Label) (hl : ∀ id, l ≠ .truth id) :
    Arranged [Code.jmp l, Code.label l'] :=
  (arranged_jump Code.jmp rfl hl).append (arranged_of_references rfl)

theorem apart_loop {i : Loop} (hnext : ∀ id, i.next ≠ .truth id) (hexit : ∀ id, i.exit ≠ .truth id) :
    Apart (some i) := by
  intro i' hi id
  cases hi
  exact ⟨hnext id, hexit id⟩

theorem arranged_call {l : Option Loop} {f : Frame} {callee : String} {es : List Expr}
    {out : Option Register} {n n₁ : Nat} {code : Code}
    (hE : Emits l f (.arguments es (out.getD .result).adjacent) n code n₁)
    (hout : ∀ q, out = some q → Plain q) (h : Arranged code) :
    Arranged (code ++ [Code.call (.function ⟨callee, es.length⟩)] ++
      (out.map fun q => Code.mov q .result).toList ++ Code.release .result es.length) := by
  have hmove : references ((out.map fun q => Code.mov q .result).toList) = [] := by cases out <;> rfl
  have hrest : Arranged ((out.map fun q => Code.mov q .result).toList ++
      Code.release .result es.length) :=
    (arranged_of_references hmove).plain (references_release _ _)
  rw [List.append_assoc, List.append_assoc]
  intro before line after hsplit
  obtain ⟨rest, hin, rfl⟩ | ⟨rest, rfl, hin⟩ := append_eq_append_cons hsplit
  · exact (h before line rest hin).widen [] _
  · cases rest with
    | nil =>
      cases hin
      constructor
      · intro id hid
        cases hid
      · intro g hg
        rw [← eq_of_call_eq hg]
        exact ⟨es, out, [], code, [], ⟨l, f, n, n₁, hE⟩, rfl, hout, List.append_nil code,
          (List.append_nil _).symm⟩
    | cons line' rest =>
      rcases List.cons.inj hin with ⟨rfl, hback⟩
      have hw := (hrest rest line after hback).widen
        (code ++ [Code.call (.function ⟨callee, es.length⟩)]) []
      rwa [List.append_nil, List.append_assoc] at hw

theorem arranges_of_emits {l : Option Loop} {f : Frame} {part : Part} {n n₁ : Nat} {code : Code}
    (hE : Emits l f part n code n₁) : part.Arranges l code := by
  have empty : Arranged [] := arranged_of_references rfl
  induction hE with
  | @int l f n v out =>
    intro h
    refine arranged_of_references ?_
    cases out <;> rfl
  | unusedName | unusedPlace | noArguments => exact fun _ => empty
  | nil => exact fun _ => empty
  | name hk => exact fun _ => arranged_of_references (references_valueAt _ _)
  | unusedBinary hr hl ihr ihl => exact fun h => (ihr h).append (ihl h)
  | binary hr hl ihr ihl =>
    intro h
    exact ((((ihr h).plain rfl).append (ihl h)).plain rfl).append (arranged_combination _ _ _ _)
  | addressOf h ih | unusedNot h ih | pointer h ih => exact ih
  | @negate l f n n₁ e out code h ih | @bitNot l f n n₁ e out code h ih
  | @dereference l f n n₁ e out code h ih =>
    intro hp
    refine (ih hp).plain ?_
    cases out <;> rfl
  | logicalNot h ih => exact fun hp => ((ih hp).plain rfl).append (arranged_truthCode .jiz _ _)
  | @call l f n n₁ callee es out code h ih =>
    intro hp
    exact arranged_call h hp (ih (plain_of_general (Register.general_adjacent (out.getD .result))))
  | argument h hs ih ihs =>
    intro hr
    exact ((ih fun q hq => plain_some hr hq).plain rfl).append (ihs hr)
  | namePlace hk => exact fun _ => arranged_of_references (references_addressAt _ _)
  | ifOnly he hs ihe ihs =>
    intro hl
    exact (((ihe fun q hq => plain_some (by decide) hq).append (arranged_test _ (by simp))).append
      (ihs hl)).plain rfl
  | ifElse he hs ht ihe ihs iht =>
    intro hl
    exact (((((ihe fun q hq => plain_some (by decide) hq).append (arranged_test _ (by simp))).append
      (ihs hl)).append (arranged_jump_label _ (by simp))).append (iht hl)).plain rfl
  | @whileDo l f n n₁ n₂ e ss test inner he hs ihe ihs =>
    intro hl
    have hbody := ihs (apart_loop (by simp) (by simp))
    have hlabel : references [Code.label (.loop n)] = [] := rfl
    have hend : ∀ id, Label.endLoop n ≠ .truth id := by simp
    have htest := ((ihe fun q hq => plain_some (by decide) hq).preceded hlabel).append
      (arranged_test whileCondition hend)
    exact (htest.append hbody).append (arranged_jump_label _ (by simp))
  | @forDo l f n n₁ n₂ n₃ n₄ n₅ counter start condition step ss place first test inner last
      hp hs hc hb ht ihp ihs ihc ihb iht =>
    intro hl
    have hvalue : ∀ q, some countValue = some q → Plain q := fun q hq => plain_some (by decide) hq
    have hbody := ihb (apart_loop (by simp) (by simp))
    have hkeep : references [Code.push countAddress] = [] := rfl
    have hset : references [Code.load countAddress .stack, Code.store countAddress countValue] = [] :=
      rfl
    have hcount : references [Code.load countAddress .stack, Code.load countScratch countAddress,
      Code.add countScratch countValue, Code.store countAddress countScratch] = [] := rfl
    have hlabel : ∀ l : Label, references [Code.label l] = [] := fun _ => rfl
    have hplace := ihp fun q hq => plain_some (by decide) hq
    have hfirst := (hplace.plain hkeep).append (ihs hvalue)
    have htest := ((hfirst.plain hset).plain (hlabel (.count n))).append (ihc hvalue)
    have hend : ∀ id, Label.endCount n ≠ .truth id := by simp
    have hinner := ((htest.append (arranged_test countValue hend)).append hbody).plain
      (hlabel (.nextCount n))
    have hnext : ∀ id, Label.count n ≠ .truth id := by simp
    have hback := (arranged_jump Code.jmp rfl hnext).preceded hcount
    exact ((hinner.append (iht hvalue)).append hback).plain rfl
  | retNothing =>
    exact fun _ => (arranged_of_references (references_release _ _)).plain rfl
  | ret h ih =>
    intro hl
    exact ((ih fun q hq => plain_some (by decide) hq).plain (references_release _ _)).plain rfl
  | @breakLoop i f n =>
    exact fun hl => arranged_jump Code.jmp rfl fun id => (hl i rfl id).2
  | @continueLoop i f n =>
    exact fun hl => arranged_jump Code.jmp rfl fun id => (hl i rfl id).1
  | assign hp he ihp ihe =>
    intro hl
    exact (((ihp fun q hq => plain_some (by decide) hq).plain rfl).append
      (ihe fun q hq => plain_some (by decide) hq)).plain rfl
  | exec h ih => exact fun hl => ih fun q hq => by cases hq
  | cons hs hss ihs ihss => exact fun hl => (ihs hl).append (ihss hl)

theorem arranged_of_emitsFunction {f : Function} {n n₁ : Nat} {code : Code}
    (h : EmitsFunction f n code n₁) : Arranged code := by
  obtain ⟨body, hE, rfl⟩ := h
  have hbody : Arranged body := arranges_of_emits hE fun i hi => by cases hi
  have hentry : Arranged ([.blank, Code.label (.function f.signature)] ++
      Code.reserve frameSize f.locals.length) :=
    (arranged_of_references rfl).plain (references_reserve _ _)
  exact ((hentry.append hbody).plain (references_release _ _)).plain rfl

end WordMachine.Compiler
