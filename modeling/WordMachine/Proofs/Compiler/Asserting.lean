import WordMachine.Proofs.Compiler.Fragments

/-!
# The registers that bodies are generated with

The generator of bodies again, with assertions: an expression that is evaluated into a register is
evaluated into one of `R1` to `R250`, and the code of an operator begins with an instruction on two
different registers. With and without them the generator is the same, whatever a broken assertion would
fail with (`asserted_block`). So none is ever broken, however deep an expression is.
-/

namespace WordMachine.Compiler

open Source Generator Code

def require (holds : Bool) (alarm : Failure) : Generator Unit :=
  if holds then succeed () else fail alarm

/-- Whether code begins with an instruction on two different registers. -/
def beginsApart : Code → Bool
  | .instruction x :: _ => x.operands.first?.any fun a => x.operands.second?.any fun b => a ≠ b
  | _ => false

/-! ### The generator with assertions -/

namespace Asserted

mutual

/-- The code of an expression, of which each evaluation into a register is asserted to be into one of
`R1` to `R250`. -/
def expression (alarm : Failure) (e : Expr) (out : Option Register) : Generator Code := do
  require (out.all fun r => decide r.General) alarm
  match e with
  | .int value => Compiler.expression (.int value) out
  | .name text => Compiler.expression (.name text) out
  | .binary op left right =>
    match out with
    | none => do
      let second ← expression alarm right none
      let first ← expression alarm left none
      return second ++ first
    | some r => do
      let second ← expression alarm right (some r)
      pushed 1
      let first ← expression alarm left (some r)
      popped 1
      let last ← combine op r r.adjacent
      require (beginsApart last) alarm
      return second ++ [push r] ++ first ++ [pop r.adjacent] ++ last
  | .unary .addressOf operand => address alarm operand out
  | .unary .negate operand => do
    let code ← expression alarm operand out
    return code ++ (out.map neg).toList
  | .unary .bitNot operand => do
    let code ← expression alarm operand out
    return code ++ (out.map Code.not).toList
  | .unary .logicalNot operand => do
    let code ← expression alarm operand out
    match out with
    | none => return code
    | some r =>
      let truth ← truthValue jiz r
      return code ++ [test r] ++ truth
  | .unary .dereference operand => do
    let code ← expression alarm operand out
    return code ++ (out.map fun r => load r r).toList
  | .call callee arguments => do
    let code ← pushArguments alarm arguments (out.getD .result).adjacent
    popped arguments.length
    return code ++ [call (.function ⟨callee, arguments.length⟩)] ++
      (out.map fun r => mov r .result).toList ++ release .result arguments.length

def pushArguments (alarm : Failure) (es : List Expr) (scratch : Register) : Generator Code :=
  match es with
  | [] => return []
  | e :: es => do
    let first ← expression alarm e (some scratch)
    pushed 1
    let rest ← pushArguments alarm es scratch
    return first ++ [push scratch] ++ rest

def address (alarm : Failure) (e : Expr) (out : Option Register) : Generator Code :=
  match e with
  | .unary .dereference operand => expression alarm operand out
  | e => Compiler.address e out

end

mutual

def statement (alarm : Failure) (s : Stmt) : Generator Code :=
  match s with
  | .ifElse condition body otherwise => do
    let id ← freshId
    let test ← expression alarm condition (some ifCondition)
    let first ← block alarm body
    let second ← block alarm otherwise
    if otherwise.isEmpty then
      return test ++ [Code.test ifCondition, jiz (.endIf id)] ++ first ++ [label (.endIf id)]
    else
      return test ++ [Code.test ifCondition, jiz (.otherwise id)] ++ first ++
        [jmp (.endIf id), label (.otherwise id)] ++ second ++ [label (.endIf id)]
  | .whileDo condition body => do
    let id ← freshId
    let test ← expression alarm condition (some whileCondition)
    let inner ← inLoop ⟨.loop id, .endLoop id⟩ (block alarm body)
    return [label (.loop id)] ++ test ++ [Code.test whileCondition, jiz (.endLoop id)] ++ inner ++
      [jmp (.loop id), label (.endLoop id)]
  | .forDo counter start condition step body => do
    let id ← freshId
    let place ← address alarm counter (some countAddress)
    pushed 1
    let first ← expression alarm start (some countValue)
    let test ← expression alarm condition (some countValue)
    let inner ← inLoop ⟨.nextCount id, .endCount id⟩ (block alarm body)
    let last ← expression alarm step (some countValue)
    popped 1
    return place ++ [push countAddress] ++
      first ++ [load countAddress .stack, store countAddress countValue] ++
      [label (.count id)] ++ test ++ [Code.test countValue, jiz (.endCount id)] ++ inner ++
      [label (.nextCount id)] ++ last ++
      [load countAddress .stack, load countScratch countAddress, add countScratch countValue,
        store countAddress countScratch, jmp (.count id)] ++
      [label (.endCount id), pop .result]
  | .ret none => Compiler.statement (.ret none)
  | .ret (some value) => do
    let code ← expression alarm value (some returnValue)
    let f ← frame
    return code ++ release .result f.depth ++ [mov .result returnValue, ret]
  | .breakLoop => Compiler.statement .breakLoop
  | .continueLoop => Compiler.statement .continueLoop
  | .assign target value => do
    let place ← address alarm target (some assignValue)
    pushed 1
    let code ← expression alarm value (some assignValue)
    popped 1
    return place ++ [push assignValue] ++ code ++ [pop .result, store .result assignValue]
  | .exec e => expression alarm e none

def block (alarm : Failure) (ss : List Stmt) : Generator Code :=
  match ss with
  | [] => return []
  | s :: ss => do
    let first ← statement alarm s
    let rest ← block alarm ss
    return first ++ rest

end

end Asserted

/-! ### No assertion is broken -/

section

variable {α : Type} {holds : Bool} {r : Register}

theorem require_bind (h : holds = true) (alarm : Failure) (g : Generator α) :
    (require holds alarm >>= fun _ => g) = g := by
  subst h
  rfl

/-- The code that combines two operands begins with an instruction on their registers. -/
theorem beginsApart_combination (op : BinaryOp) {x : Register} (hx : x ≠ r) (id : Nat) :
    beginsApart (combination op r x id) = true := by
  have hr : r ≠ x := hx.symm
  cases op <;>
    simp [combination, beginsApart, Operands.first?, Operands.second?, Code.xor, sub, add, Code.or,
      smul, sdiv, smod, Code.and, hx, hr]

theorem combine_require (op : BinaryOp) (hr : r.General) (alarm : Failure) (k : Code → Generator α) :
    (combine op r r.adjacent >>= fun last => require (beginsApart last) alarm >>= fun _ => k last) =
      (combine op r r.adjacent >>= k) := by
  funext c
  show andThen _ _ c = andThen _ _ c
  unfold andThen
  cases hc : combine op r r.adjacent c with
  | error e => rfl
  | ok p =>
    have hlast : beginsApart p.1 = true := by
      rw [← (combine_eq_ok.1 hc).1]
      exact beginsApart_combination op hr.adjacent_ne _
    exact congrFun (require_bind hlast alarm (k p.1)) p.2

end

mutual

theorem asserted_expression (alarm : Failure) (e : Expr) (out : Option Register)
    (hout : out.all (fun r => decide r.General) = true) :
    Asserted.expression alarm e out = expression e out := by
  match e, out with
  | .int w, out | .name x, out => rw [Asserted.expression, require_bind hout]
  | .binary op left right, none =>
    rw [Asserted.expression, require_bind hout, expression]
    simp only [asserted_expression alarm right _ hout, asserted_expression alarm left _ hout]
  | .binary op left right, some r =>
    have hr : r.General := by simpa using hout
    rw [Asserted.expression, require_bind hout, expression]
    simp only [asserted_expression alarm right _ hout, asserted_expression alarm left _ hout,
      combine_require op hr]
  | .unary .addressOf operand, out =>
    rw [Asserted.expression, require_bind hout, expression]
    exact asserted_address alarm operand _ hout
  | .unary .negate operand, out | .unary .bitNot operand, out | .unary .dereference operand, out =>
    rw [Asserted.expression, require_bind hout, expression]
    simp only [asserted_expression alarm operand _ hout]
  | .unary .logicalNot operand, none | .unary .logicalNot operand, some r =>
    rw [Asserted.expression, require_bind hout, expression]
    simp only [asserted_expression alarm operand _ hout]
  | .call callee es, out =>
    rw [Asserted.expression, require_bind hout, expression]
    simp only [asserted_pushArguments alarm es (Register.general_adjacent _)]

theorem asserted_pushArguments (alarm : Failure) (es : List Expr) {scratch : Register}
    (hr : scratch.General) :
    Asserted.pushArguments alarm es scratch = pushArguments es scratch := by
  match es with
  | [] => rw [Asserted.pushArguments, pushArguments]
  | e :: es =>
    have hout : (some scratch).all (fun r => decide r.General) = true := by simpa using hr
    rw [Asserted.pushArguments, pushArguments]
    simp only [asserted_expression alarm e _ hout, asserted_pushArguments alarm es hr]

theorem asserted_address (alarm : Failure) (e : Expr) (out : Option Register)
    (hout : out.all (fun r => decide r.General) = true) :
    Asserted.address alarm e out = address e out := by
  match e with
  | .unary .dereference operand =>
    rw [Asserted.address, address]
    exact asserted_expression alarm operand _ hout
  | .int _ | .name _ | .binary _ _ _ | .call _ _ | .unary .negate _ | .unary .bitNot _
  | .unary .logicalNot _ | .unary .addressOf _ => simp [Asserted.address]

end

mutual

theorem asserted_statement (alarm : Failure) (s : Stmt) :
    Asserted.statement alarm s = statement s := by
  match s with
  | .ifElse condition body otherwise =>
    rw [Asserted.statement, statement]
    simp only [asserted_expression alarm condition (some ifCondition) (by decide),
      asserted_block alarm body, asserted_block alarm otherwise]
  | .whileDo condition body =>
    rw [Asserted.statement, statement]
    simp only [asserted_expression alarm condition (some whileCondition) (by decide),
      asserted_block alarm body]
  | .forDo counter start condition step body =>
    rw [Asserted.statement, statement]
    simp only [asserted_address alarm counter (some countAddress) (by decide),
      asserted_expression alarm start (some countValue) (by decide),
      asserted_expression alarm condition (some countValue) (by decide),
      asserted_expression alarm step (some countValue) (by decide),
      asserted_block alarm body]
  | .ret none | .breakLoop | .continueLoop => rw [Asserted.statement]
  | .ret (some value) =>
    rw [Asserted.statement, statement]
    simp only [asserted_expression alarm value (some returnValue) (by decide)]
  | .assign target value =>
    rw [Asserted.statement, statement]
    simp only [asserted_address alarm target (some assignValue) (by decide),
      asserted_expression alarm value (some assignValue) (by decide)]
  | .exec e =>
    rw [Asserted.statement, statement]
    exact asserted_expression alarm e none rfl

/-- The generator of statements breaks no assertion. -/
theorem asserted_block (alarm : Failure) (ss : List Stmt) :
    Asserted.block alarm ss = block ss := by
  match ss with
  | [] => rw [Asserted.block, block]
  | s :: ss =>
    rw [Asserted.block, block]
    simp only [asserted_statement alarm s, asserted_block alarm ss]

end

end WordMachine.Compiler
