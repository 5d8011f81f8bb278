import WordMachine.Compiler.Program

/-!
# Emitted code

What the generators of bodies emit, as rules. The frame and the innermost loop are those at the start
of the code that a rule is about, and a part that is generated leaves both as they were: only the
number of the next label goes on. Every success of a generator is derived by the rules
(`emits_of_expression`, `emits_of_block`), so what holds of emitted code is proved by induction on
them.
-/

namespace WordMachine.Compiler

open Source Code

/-! ### Successes of generators -/

namespace Generator

variable {α β : Type} {c c' : Context}

theorem bind_eq_ok {g : Generator α} {k : α → Generator β} {b : β} :
    (g >>= k) c = .ok (b, c') ↔ ∃ a d, g c = .ok (a, d) ∧ k a d = .ok (b, c') := by
  have hb : (g >>= k) c = andThen g k c := rfl
  rw [hb, andThen]
  cases hg : g c with
  | error e => simp
  | ok p =>
    rcases p with ⟨a, d⟩
    simp only [Except.ok.injEq, Prod.mk.injEq]
    constructor
    · intro h
      exact ⟨a, d, ⟨rfl, rfl⟩, h⟩
    · rintro ⟨_, _, ⟨rfl, rfl⟩, h⟩
      exact h

theorem pure_eq_ok {a b : α} : (pure a : Generator α) c = .ok (b, c') ↔ a = b ∧ c = c' := by
  have hp : (pure a : Generator α) c = .ok (a, c) := rfl
  rw [hp]
  simp

theorem freshId_eq_ok {n : Nat} :
    freshId c = .ok (n, c') ↔ c.nextId = n ∧ ⟨c.nextId + 1, c.frame, c.loop⟩ = c' := by
  simp [freshId]

theorem frame_eq_ok {f : Frame} : frame c = .ok (f, c') ↔ c.frame = f ∧ c = c' := by
  simp [frame]

theorem loop_eq_ok {l : Option Loop} : loop c = .ok (l, c') ↔ c.loop = l ∧ c = c' := by
  simp [loop]

theorem pushed_eq_ok {k : Nat} {u : Unit} :
    pushed k c = .ok (u, c') ↔ ⟨c.nextId, c.frame.push k, c.loop⟩ = c' := by
  simp [pushed]

theorem popped_eq_ok {k : Nat} {u : Unit} {n : Nat} {f : Frame} {l : Option Loop} :
    popped k ⟨n, f.push k, l⟩ = .ok (u, c') ↔ ⟨n, f, l⟩ = c' := by
  simp [popped]

theorem offset_eq_ok {x : String} {k : Nat} :
    offset x c = .ok (k, c') ↔ c.frame.offset? x = some k ∧ c = c' := by
  cases h : c.frame.offset? x <;> simp [offset, h]

theorem inLoop_eq_ok {inner : Loop} {g : Generator α} {a : α} :
    inLoop inner g c = .ok (a, c') ↔
      ∃ d, g ⟨c.nextId, c.frame, some inner⟩ = .ok (a, d) ∧ ⟨d.nextId, d.frame, c.loop⟩ = c' := by
  have hd : ({ c with loop := some inner } : Context) = ⟨c.nextId, c.frame, some inner⟩ := rfl
  rw [inLoop, hd]
  cases g ⟨c.nextId, c.frame, some inner⟩ with
  | error e => simp
  | ok p =>
    rcases p with ⟨b, d⟩
    simp only [Except.ok.injEq, Prod.mk.injEq]
    constructor
    · rintro ⟨rfl, rfl⟩
      exact ⟨d, ⟨rfl, rfl⟩, rfl⟩
    · rintro ⟨_, ⟨rfl, rfl⟩, rfl⟩
      exact ⟨rfl, rfl⟩

theorem fail_ne_ok {e : Failure} {a : α} : (fail e : Generator α) c = .ok (a, c') ↔ False := by
  simp [fail]

end Generator

open Generator

/-! ### Operators -/

/-- The code that replaces a register by its truth value, with the number of its label. -/
def truthCode (jump : Label → Assembly.Line) (out : Register) (id : Nat) : Code :=
  [set out 1, jump (.truth id), xor out out, label (.truth id)]

/-- The code that combines the operands in two registers, with the number of its label if it has one. -/
def combination (op : BinaryOp) (out other : Register) (id : Nat) : Code :=
  match op with
  | .equal => xor other out :: truthCode jiz out id
  | .less => sub out other :: truthCode jis out id
  | .greater => sub other out :: truthCode jis out id
  | .add => [add out other]
  | .subtract => [sub out other]
  | .bitOr => [or out other]
  | .bitXor => [xor out other]
  | .multiply => [smul out other]
  | .divide => [sdiv out other]
  | .remainder => [smod out other]
  | .bitAnd => [and out other]

def labelCount (op : BinaryOp) : Nat := if op.level = .comparison then 1 else 0

theorem truthValue_eq_ok {jump : Label → Assembly.Line} {out : Register} {c c' : Context}
    {code : Code} : truthValue jump out c = .ok (code, c') ↔
      truthCode jump out c.nextId = code ∧ ⟨c.nextId + 1, c.frame, c.loop⟩ = c' := by
  simp only [truthValue, bind_eq_ok, pure_eq_ok, freshId_eq_ok]
  constructor
  · rintro ⟨_, _, ⟨rfl, rfl⟩, rfl, rfl⟩
    exact ⟨rfl, rfl⟩
  · rintro ⟨rfl, rfl⟩
    exact ⟨_, _, ⟨rfl, rfl⟩, rfl, rfl⟩

theorem combine_eq_ok {op : BinaryOp} {out other : Register} {c c' : Context} {code : Code} :
    combine op out other c = .ok (code, c') ↔
      combination op out other c.nextId = code ∧
        ⟨c.nextId + labelCount op, c.frame, c.loop⟩ = c' := by
  cases op with
  | equal | less | greater =>
    simp only [combine, bind_eq_ok, pure_eq_ok, truthValue_eq_ok]
    constructor
    · rintro ⟨_, _, ⟨rfl, rfl⟩, rfl, rfl⟩
      exact ⟨rfl, rfl⟩
    · rintro ⟨rfl, rfl⟩
      exact ⟨_, _, ⟨rfl, rfl⟩, rfl, rfl⟩
  | add | subtract | bitOr | bitXor | multiply | divide | remainder | bitAnd =>
    exact pure_eq_ok

/-! ### The rules -/

/-- What code is generated for: an expression, its value or its effects alone, the arguments of a call,
an address, a statement, or statements. -/
inductive Part
  | value (e : Expr) (out : Option Register)
  | arguments (es : List Expr) (scratch : Register)
  | place (e : Expr) (out : Option Register)
  | statement (s : Stmt)
  | block (ss : List Stmt)

/-- A part has this code in a loop and a frame, if its labels are numbered from the first number and
the second one is next after them. -/
inductive Emits : Option Loop → Frame → Part → Nat → Code → Nat → Prop
  | int {l f n w out} : Emits l f (.value (.int w) out) n (out.map fun r => set r w.toNat).toList n
  | unusedName {l f n x} : Emits l f (.value (.name x) none) n [] n
  | name {l f n x k r} : f.offset? x = some k → Emits l f (.value (.name x) (some r)) n (valueAt k r) n
  | unusedBinary {l f n n₁ n₂ op left right first second} :
      Emits l f (.value right none) n second n₁ → Emits l f (.value left none) n₁ first n₂ →
      Emits l f (.value (.binary op left right) none) n (second ++ first) n₂
  | binary {l f n n₁ n₂ op left right r first second} :
      Emits l f (.value right (some r)) n second n₁ →
      Emits l (f.push 1) (.value left (some r)) n₁ first n₂ →
      Emits l f (.value (.binary op left right) (some r)) n
        (second ++ [push r] ++ first ++ [pop r.adjacent] ++ combination op r r.adjacent n₂)
        (n₂ + labelCount op)
  | addressOf {l f n n₁ e out code} : Emits l f (.place e out) n code n₁ →
      Emits l f (.value (.unary .addressOf e) out) n code n₁
  | negate {l f n n₁ e out code} : Emits l f (.value e out) n code n₁ →
      Emits l f (.value (.unary .negate e) out) n (code ++ (out.map neg).toList) n₁
  | bitNot {l f n n₁ e out code} : Emits l f (.value e out) n code n₁ →
      Emits l f (.value (.unary .bitNot e) out) n (code ++ (out.map Code.not).toList) n₁
  | unusedNot {l f n n₁ e code} : Emits l f (.value e none) n code n₁ →
      Emits l f (.value (.unary .logicalNot e) none) n code n₁
  | logicalNot {l f n n₁ e r code} : Emits l f (.value e (some r)) n code n₁ →
      Emits l f (.value (.unary .logicalNot e) (some r)) n
        (code ++ [test r] ++ truthCode jiz r n₁) (n₁ + 1)
  | dereference {l f n n₁ e out code} : Emits l f (.value e out) n code n₁ →
      Emits l f (.value (.unary .dereference e) out) n
        (code ++ (out.map fun r => load r r).toList) n₁
  | call {l f n n₁ callee es out code} :
      Emits l f (.arguments es (out.getD .result).adjacent) n code n₁ →
      Emits l f (.value (.call callee es) out) n
        (code ++ [call (.function ⟨callee, es.length⟩)] ++ (out.map fun r => mov r .result).toList ++
          release .result es.length) n₁
  | noArguments {l f n r} : Emits l f (.arguments [] r) n [] n
  | argument {l f n n₁ n₂ e es r first rest} : Emits l f (.value e (some r)) n first n₁ →
      Emits l (f.push 1) (.arguments es r) n₁ rest n₂ →
      Emits l f (.arguments (e :: es) r) n (first ++ [push r] ++ rest) n₂
  | unusedPlace {l f n x} : Emits l f (.place (.name x) none) n [] n
  | namePlace {l f n x k r} : f.offset? x = some k →
      Emits l f (.place (.name x) (some r)) n (addressAt k r) n
  | pointer {l f n n₁ e out code} : Emits l f (.value e out) n code n₁ →
      Emits l f (.place (.unary .dereference e) out) n code n₁
  | ifOnly {l f n n₁ n₂ e ss test first} :
      Emits l f (.value e (some ifCondition)) (n + 1) test n₁ → Emits l f (.block ss) n₁ first n₂ →
      Emits l f (.statement (.ifElse e ss [])) n
        (test ++ [Code.test ifCondition, jiz (.endIf n)] ++ first ++ [label (.endIf n)]) n₂
  | ifElse {l f n n₁ n₂ n₃ e ss t ts test first second} :
      Emits l f (.value e (some ifCondition)) (n + 1) test n₁ → Emits l f (.block ss) n₁ first n₂ →
      Emits l f (.block (t :: ts)) n₂ second n₃ →
      Emits l f (.statement (.ifElse e ss (t :: ts))) n
        (test ++ [Code.test ifCondition, jiz (.otherwise n)] ++ first ++
          [jmp (.endIf n), label (.otherwise n)] ++ second ++ [label (.endIf n)]) n₃
  | whileDo {l f n n₁ n₂ e ss test inner} :
      Emits l f (.value e (some whileCondition)) (n + 1) test n₁ →
      Emits (some ⟨.loop n, .endLoop n⟩) f (.block ss) n₁ inner n₂ →
      Emits l f (.statement (.whileDo e ss)) n
        ([label (.loop n)] ++ test ++ [Code.test whileCondition, jiz (.endLoop n)] ++ inner ++
          [jmp (.loop n), label (.endLoop n)]) n₂
  | forDo {l f n n₁ n₂ n₃ n₄ n₅ counter start condition step ss place first test inner last} :
      Emits l f (.place counter (some countAddress)) (n + 1) place n₁ →
      Emits l (f.push 1) (.value start (some countValue)) n₁ first n₂ →
      Emits l (f.push 1) (.value condition (some countValue)) n₂ test n₃ →
      Emits (some ⟨.nextCount n, .endCount n⟩) (f.push 1) (.block ss) n₃ inner n₄ →
      Emits l (f.push 1) (.value step (some countValue)) n₄ last n₅ →
      Emits l f (.statement (.forDo counter start condition step ss)) n
        (place ++ [push countAddress] ++
          first ++ [load countAddress .stack, store countAddress countValue] ++
          [label (.count n)] ++ test ++ [Code.test countValue, jiz (.endCount n)] ++ inner ++
          [label (.nextCount n)] ++ last ++
          [load countAddress .stack, load countScratch countAddress, add countScratch countValue,
            store countAddress countScratch, jmp (.count n)] ++
          [label (.endCount n), pop .result]) n₅
  | retNothing {l f n} : Emits l f (.statement (.ret none)) n (release .result f.depth ++ [ret]) n
  | ret {l f n n₁ e code} : Emits l f (.value e (some returnValue)) n code n₁ →
      Emits l f (.statement (.ret (some e))) n
        (code ++ release .result f.depth ++ [mov .result returnValue, Code.ret]) n₁
  | breakLoop {i f n} : Emits (some i) f (.statement .breakLoop) n [jmp i.exit] n
  | continueLoop {i f n} : Emits (some i) f (.statement .continueLoop) n [jmp i.next] n
  | assign {l f n n₁ n₂ target e place code} :
      Emits l f (.place target (some assignValue)) n place n₁ →
      Emits l (f.push 1) (.value e (some assignValue)) n₁ code n₂ →
      Emits l f (.statement (.assign target e)) n
        (place ++ [push assignValue] ++ code ++ [pop .result, store .result assignValue]) n₂
  | exec {l f n n₁ e code} : Emits l f (.value e none) n code n₁ →
      Emits l f (.statement (.exec e)) n code n₁
  | nil {l f n} : Emits l f (.block []) n [] n
  | cons {l f n n₁ n₂ s ss first rest} : Emits l f (.statement s) n first n₁ →
      Emits l f (.block ss) n₁ rest n₂ → Emits l f (.block (s :: ss)) n (first ++ rest) n₂

/-! ### Generated code is emitted -/

mutual

theorem emits_of_expression (e : Expr) (out : Option Register) {n : Nat} {f : Frame} {l : Option Loop}
    {code : Code} {c : Context} (h : expression e out ⟨n, f, l⟩ = .ok (code, c)) :
    ∃ n₁, c = ⟨n₁, f, l⟩ ∧ Emits l f (.value e out) n code n₁ := by
  match e, out with
  | .int w, out =>
    simp only [expression, pure_eq_ok] at h
    obtain ⟨rfl, rfl⟩ := h
    exact ⟨n, rfl, .int⟩
  | .name x, none =>
    simp only [expression, pure_eq_ok] at h
    obtain ⟨rfl, rfl⟩ := h
    exact ⟨n, rfl, .unusedName⟩
  | .name x, some r =>
    simp only [expression, bind_eq_ok, pure_eq_ok, offset_eq_ok] at h
    obtain ⟨k, _, ⟨hk, rfl⟩, rfl, rfl⟩ := h
    exact ⟨n, rfl, .name hk⟩
  | .binary op left right, none =>
    simp only [expression, bind_eq_ok, pure_eq_ok] at h
    obtain ⟨second, c₁, h₁, first, c₂, h₂, rfl, rfl⟩ := h
    obtain ⟨n₁, rfl, hr⟩ := emits_of_expression right none h₁
    obtain ⟨n₂, rfl, hl⟩ := emits_of_expression left none h₂
    exact ⟨n₂, rfl, .unusedBinary hr hl⟩
  | .binary op left right, some r =>
    simp only [expression, bind_eq_ok, pure_eq_ok] at h
    obtain ⟨second, c₁, h₁, _, _, hp, first, c₂, h₂, _, _, hq, last, c₃, h₃, rfl, rfl⟩ := h
    obtain ⟨n₁, rfl, hr⟩ := emits_of_expression right (some r) h₁
    rw [pushed_eq_ok] at hp
    subst hp
    obtain ⟨n₂, rfl, hl⟩ := emits_of_expression left (some r) h₂
    rw [popped_eq_ok] at hq
    subst hq
    obtain ⟨rfl, rfl⟩ := combine_eq_ok.1 h₃
    exact ⟨n₂ + labelCount op, rfl, .binary hr hl⟩
  | .unary .addressOf operand, out =>
    simp only [expression] at h
    obtain ⟨n₁, rfl, hp⟩ := emits_of_address operand out h
    exact ⟨n₁, rfl, .addressOf hp⟩
  | .unary .negate operand, out =>
    simp only [expression, bind_eq_ok, pure_eq_ok] at h
    obtain ⟨first, c₁, h₁, rfl, rfl⟩ := h
    obtain ⟨n₁, rfl, hv⟩ := emits_of_expression operand out h₁
    exact ⟨n₁, rfl, .negate hv⟩
  | .unary .bitNot operand, out =>
    simp only [expression, bind_eq_ok, pure_eq_ok] at h
    obtain ⟨first, c₁, h₁, rfl, rfl⟩ := h
    obtain ⟨n₁, rfl, hv⟩ := emits_of_expression operand out h₁
    exact ⟨n₁, rfl, .bitNot hv⟩
  | .unary .logicalNot operand, none =>
    simp only [expression, bind_eq_ok, pure_eq_ok] at h
    obtain ⟨first, c₁, h₁, rfl, rfl⟩ := h
    obtain ⟨n₁, rfl, hv⟩ := emits_of_expression operand none h₁
    exact ⟨n₁, rfl, .unusedNot hv⟩
  | .unary .logicalNot operand, some r =>
    simp only [expression, bind_eq_ok, pure_eq_ok, truthValue_eq_ok] at h
    obtain ⟨first, c₁, h₁, _, _, ⟨rfl, rfl⟩, rfl, rfl⟩ := h
    obtain ⟨n₁, rfl, hv⟩ := emits_of_expression operand (some r) h₁
    exact ⟨n₁ + 1, rfl, .logicalNot hv⟩
  | .unary .dereference operand, out =>
    simp only [expression, bind_eq_ok, pure_eq_ok] at h
    obtain ⟨first, c₁, h₁, rfl, rfl⟩ := h
    obtain ⟨n₁, rfl, hv⟩ := emits_of_expression operand out h₁
    exact ⟨n₁, rfl, .dereference hv⟩
  | .call callee es, out =>
    simp only [expression, bind_eq_ok, pure_eq_ok] at h
    obtain ⟨first, c₁, h₁, _, _, hq, rfl, rfl⟩ := h
    obtain ⟨n₁, rfl, ha⟩ := emits_of_pushArguments es _ h₁
    rw [popped_eq_ok] at hq
    subst hq
    exact ⟨n₁, rfl, .call ha⟩

theorem emits_of_pushArguments (es : List Expr) (scratch : Register) {n : Nat} {f : Frame}
    {l : Option Loop} {code : Code} {c : Context}
    (h : pushArguments es scratch ⟨n, f, l⟩ = .ok (code, c)) :
    ∃ n₁, c = ⟨n₁, f.push es.length, l⟩ ∧ Emits l f (.arguments es scratch) n code n₁ := by
  match es with
  | [] =>
    simp only [pushArguments, pure_eq_ok] at h
    obtain ⟨rfl, rfl⟩ := h
    exact ⟨n, rfl, .noArguments⟩
  | e :: es =>
    simp only [pushArguments, bind_eq_ok, pure_eq_ok] at h
    obtain ⟨first, c₁, h₁, _, _, hp, rest, c₂, h₂, rfl, rfl⟩ := h
    obtain ⟨n₁, rfl, hv⟩ := emits_of_expression e (some scratch) h₁
    rw [pushed_eq_ok] at hp
    subst hp
    obtain ⟨n₂, rfl, ha⟩ := emits_of_pushArguments es scratch h₂
    refine ⟨n₂, ?_, .argument hv ha⟩
    rw [List.length_cons, Nat.add_comm]
    simp only [Frame.push, Nat.add_assoc]

theorem emits_of_address (e : Expr) (out : Option Register) {n : Nat} {f : Frame} {l : Option Loop}
    {code : Code} {c : Context} (h : address e out ⟨n, f, l⟩ = .ok (code, c)) :
    ∃ n₁, c = ⟨n₁, f, l⟩ ∧ Emits l f (.place e out) n code n₁ := by
  match e, out with
  | .name x, none =>
    simp only [address, pure_eq_ok] at h
    obtain ⟨rfl, rfl⟩ := h
    exact ⟨n, rfl, .unusedPlace⟩
  | .name x, some r =>
    simp only [address, bind_eq_ok, pure_eq_ok, offset_eq_ok] at h
    obtain ⟨k, _, ⟨hk, rfl⟩, rfl, rfl⟩ := h
    exact ⟨n, rfl, .namePlace hk⟩
  | .unary .dereference operand, out =>
    simp only [address] at h
    obtain ⟨n₁, rfl, hv⟩ := emits_of_expression operand out h
    exact ⟨n₁, rfl, .pointer hv⟩
  | .int _, _ | .binary _ _ _, _ | .call _ _, _ | .unary .negate _, _ | .unary .bitNot _, _
  | .unary .logicalNot _, _ | .unary .addressOf _, _ => simp [address, fail] at h

end

mutual

theorem emits_of_statement (s : Stmt) {n : Nat} {f : Frame} {l : Option Loop} {code : Code}
    {c : Context} (h : statement s ⟨n, f, l⟩ = .ok (code, c)) :
    ∃ n₁, c = ⟨n₁, f, l⟩ ∧ Emits l f (.statement s) n code n₁ := by
  match s with
  | .ifElse condition body otherwise =>
    simp only [statement, bind_eq_ok, freshId_eq_ok] at h
    obtain ⟨_, _, ⟨rfl, rfl⟩, test, c₁, h₁, first, c₂, h₂, second, c₃, h₃, h⟩ := h
    obtain ⟨n₁, rfl, ht⟩ := emits_of_expression condition _ h₁
    obtain ⟨n₂, rfl, hb⟩ := emits_of_block body h₂
    obtain ⟨n₃, rfl, ho⟩ := emits_of_block otherwise h₃
    match otherwise, ho with
    | [], ho =>
      simp only [List.isEmpty_nil, if_true, pure_eq_ok] at h
      obtain ⟨rfl, rfl⟩ := h
      cases ho
      exact ⟨n₂, rfl, .ifOnly ht hb⟩
    | t :: ts, ho =>
      simp only [List.isEmpty_cons, Bool.false_eq_true, if_false, pure_eq_ok] at h
      obtain ⟨rfl, rfl⟩ := h
      exact ⟨n₃, rfl, .ifElse ht hb ho⟩
  | .whileDo condition body =>
    simp only [statement, bind_eq_ok, pure_eq_ok, freshId_eq_ok, inLoop_eq_ok] at h
    obtain ⟨_, _, ⟨rfl, rfl⟩, test, c₁, h₁, inner, _, ⟨c₂, h₂, rfl⟩, rfl, rfl⟩ := h
    obtain ⟨n₁, rfl, ht⟩ := emits_of_expression condition _ h₁
    obtain ⟨n₂, rfl, hb⟩ := emits_of_block body h₂
    exact ⟨n₂, rfl, .whileDo ht hb⟩
  | .forDo counter start condition step body =>
    simp only [statement, bind_eq_ok, pure_eq_ok, freshId_eq_ok, inLoop_eq_ok] at h
    obtain ⟨_, _, ⟨rfl, rfl⟩, place, c₁, h₁, _, _, hp, first, c₂, h₂, test, c₃, h₃, inner, _,
      ⟨c₄, h₄, rfl⟩, last, c₅, h₅, _, _, hq, rfl, rfl⟩ := h
    obtain ⟨n₁, rfl, hpl⟩ := emits_of_address counter _ h₁
    rw [pushed_eq_ok] at hp
    subst hp
    obtain ⟨n₂, rfl, hf⟩ := emits_of_expression start _ h₂
    obtain ⟨n₃, rfl, ht⟩ := emits_of_expression condition _ h₃
    obtain ⟨n₄, rfl, hb⟩ := emits_of_block body h₄
    obtain ⟨n₅, rfl, hs⟩ := emits_of_expression step _ h₅
    rw [popped_eq_ok] at hq
    subst hq
    exact ⟨n₅, rfl, .forDo hpl hf ht hb hs⟩
  | .ret none =>
    simp only [statement, bind_eq_ok, pure_eq_ok, frame_eq_ok] at h
    obtain ⟨_, _, ⟨rfl, rfl⟩, rfl, rfl⟩ := h
    exact ⟨n, rfl, .retNothing⟩
  | .ret (some value) =>
    simp only [statement, bind_eq_ok, pure_eq_ok, frame_eq_ok] at h
    obtain ⟨first, c₁, h₁, _, _, ⟨rfl, rfl⟩, rfl, rfl⟩ := h
    obtain ⟨n₁, rfl, hv⟩ := emits_of_expression value _ h₁
    exact ⟨n₁, rfl, .ret hv⟩
  | .breakLoop =>
    simp only [statement, bind_eq_ok, loop_eq_ok] at h
    obtain ⟨_, _, ⟨rfl, rfl⟩, h⟩ := h
    match l, h with
    | none, h => exact (fail_ne_ok.1 h).elim
    | some i, h =>
      obtain ⟨rfl, rfl⟩ := pure_eq_ok.1 h
      exact ⟨n, rfl, .breakLoop⟩
  | .continueLoop =>
    simp only [statement, bind_eq_ok, loop_eq_ok] at h
    obtain ⟨_, _, ⟨rfl, rfl⟩, h⟩ := h
    match l, h with
    | none, h => exact (fail_ne_ok.1 h).elim
    | some i, h =>
      obtain ⟨rfl, rfl⟩ := pure_eq_ok.1 h
      exact ⟨n, rfl, .continueLoop⟩
  | .assign target value =>
    simp only [statement, bind_eq_ok, pure_eq_ok] at h
    obtain ⟨place, c₁, h₁, _, _, hp, second, c₂, h₂, _, _, hq, rfl, rfl⟩ := h
    obtain ⟨n₁, rfl, hpl⟩ := emits_of_address target _ h₁
    rw [pushed_eq_ok] at hp
    subst hp
    obtain ⟨n₂, rfl, hv⟩ := emits_of_expression value _ h₂
    rw [popped_eq_ok] at hq
    subst hq
    exact ⟨n₂, rfl, .assign hpl hv⟩
  | .exec e =>
    simp only [statement] at h
    obtain ⟨n₁, rfl, hv⟩ := emits_of_expression e none h
    exact ⟨n₁, rfl, .exec hv⟩

theorem emits_of_block (ss : List Stmt) {n : Nat} {f : Frame} {l : Option Loop} {code : Code}
    {c : Context} (h : block ss ⟨n, f, l⟩ = .ok (code, c)) :
    ∃ n₁, c = ⟨n₁, f, l⟩ ∧ Emits l f (.block ss) n code n₁ := by
  match ss with
  | [] =>
    simp only [block, pure_eq_ok] at h
    obtain ⟨rfl, rfl⟩ := h
    exact ⟨n, rfl, .nil⟩
  | s :: ss =>
    simp only [block, bind_eq_ok, pure_eq_ok] at h
    obtain ⟨first, c₁, h₁, rest, c₂, h₂, rfl, rfl⟩ := h
    obtain ⟨n₁, rfl, hs⟩ := emits_of_statement s h₁
    obtain ⟨n₂, rfl, hb⟩ := emits_of_block ss h₂
    exact ⟨n₂, rfl, .cons hs hb⟩

end

/-! ### Functions -/

/-- A function has this code, if its labels are numbered from the first number and the second one is
next after them. -/
def EmitsFunction (f : Function) (n : Nat) (code : Code) (n₁ : Nat) : Prop :=
  ∃ body, Emits none ⟨f.parameters, f.locals, 0⟩ (.block f.body) n body n₁ ∧
    code = [.blank, label (.function f.signature)] ++ reserve frameSize f.locals.length ++ body ++
      release frameSize f.locals.length ++ [Code.ret]

theorem emitsFunction_of_function {f : Function} {n n₁ : Nat} {code : Code}
    (h : function f n = .ok (code, n₁)) : EmitsFunction f n code n₁ := by
  rw [function] at h
  split at h
  · next body after hb =>
    obtain ⟨n₂, rfl, he⟩ := emits_of_block f.body hb
    cases h
    exact ⟨body, he, rfl⟩
  · cases h
  · cases h

inductive EmitsFunctions : List Function → Nat → List Code → Prop
  | nil {n} : EmitsFunctions [] n []
  | cons {f fs n n₁ code codes} : function f n = .ok (code, n₁) → EmitsFunctions fs n₁ codes →
      EmitsFunctions (f :: fs) n (code :: codes)

theorem emitsFunctions_of_functions {fs : List Function} {n : Nat} {code : Code}
    (h : functions fs n = .ok code) : ∃ codes, code = codes.flatten ∧ EmitsFunctions fs n codes := by
  induction fs generalizing n code with
  | nil =>
    cases h
    exact ⟨[], rfl, .nil⟩
  | cons f fs ih =>
    cases hf : function f n with
    | error e =>
      rw [functions, hf] at h
      cases h
    | ok p =>
      rcases p with ⟨first, n₁⟩
      cases hr : functions fs n₁ with
      | error e =>
        rw [functions, hf] at h
        simp only [bind, Except.bind, hr] at h
        cases h
      | ok rest =>
        rw [functions, hf] at h
        simp only [bind, Except.bind, hr] at h
        cases h
        obtain ⟨codes, rfl, hc⟩ := ih hr
        exact ⟨first :: codes, rfl, .cons hf hc⟩

theorem compile_eq_ok {text : String} {code : Code} (h : compile text = .ok code) :
    ∃ fs codes, parse text = .ok fs ∧ check fs = .ok () ∧ EmitsFunctions fs 0 codes ∧
      code = preamble ++ codes.flatten ++ [label .programEnd] := by
  rw [compile] at h
  split at h
  · cases h
  · next fs hp =>
    rw [compileFunctions] at h
    cases hc : check fs with
    | error e =>
      rw [hc] at h
      cases h
    | ok u =>
      cases hf : functions fs 0 with
      | error e =>
        rw [hc, hf] at h
        cases h
      | ok body =>
        rw [hc, hf] at h
        cases h
        obtain ⟨codes, rfl, he⟩ := emitsFunctions_of_functions hf
        exact ⟨fs, codes, hp, hc, he, rfl⟩

end WordMachine.Compiler
