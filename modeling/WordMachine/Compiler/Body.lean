import WordMachine.Compiler.Code
import WordMachine.Compiler.Generator

/-!
# The code of a body

An expression is evaluated into a register, or for its effects alone. An operator's right operand is
evaluated first and kept on the stack while the left one is evaluated into the same register; then it
is popped into the adjacent one. A call pushes its arguments from left to right and takes them off
after it. Every value that outlives the evaluation of another lies on the stack, because a call may
use every register.
-/

namespace WordMachine.Compiler

open Source Generator Code

/-! ### Registers of the statements -/

def ifCondition : Register := ⟨1⟩
def whileCondition : Register := ⟨2⟩
def returnValue : Register := ⟨3⟩
def assignValue : Register := ⟨4⟩
def frameSize : Register := ⟨5⟩
def countAddress : Register := ⟨7⟩
def countValue : Register := ⟨8⟩
def countScratch : Register := ⟨9⟩

/-! ### Expressions -/

/-- The code of a register's truth value: one if the jump is taken, else zero. -/
def truthValue (jump : Label → Assembly.Line) (out : Register) : Generator Code := do
  let id ← freshId
  return [set out 1, jump (.truth id), xor out out, label (.truth id)]

def addressAt (offset : Nat) (out : Register) : Code :=
  if offset = 0 then [mov out .stack] else [set out (4 * offset), add out .stack]

/-- The value of a variable at a distance from the top of the stack. -/
def valueAt (offset : Nat) (out : Register) : Code :=
  if offset = 0 then [load out .stack] else addressAt offset out ++ [load out out]

/-- Combines the left operand in `out` and the right one in `other`. -/
def combine (op : BinaryOp) (out other : Register) : Generator Code :=
  match op with
  | .equal => do
    let truth ← truthValue jiz out
    return xor other out :: truth
  | .less => do
    let truth ← truthValue jis out
    return sub out other :: truth
  | .greater => do
    let truth ← truthValue jis out
    return sub other out :: truth
  | .add => return [add out other]
  | .subtract => return [sub out other]
  | .bitOr => return [or out other]
  | .bitXor => return [xor out other]
  | .multiply => return [smul out other]
  | .divide => return [sdiv out other]
  | .remainder => return [smod out other]
  | .bitAnd => return [and out other]

mutual

def expression (e : Expr) (out : Option Register) : Generator Code :=
  match e with
  | .int value => return (out.map fun r => set r value.toNat).toList
  | .name text =>
    match out with
    | none => return []
    | some r => do
      let n ← offset text
      return valueAt n r
  | .binary op left right =>
    match out with
    | none => do
      let second ← expression right none
      let first ← expression left none
      return second ++ first
    | some r => do
      let second ← expression right (some r)
      pushed 1
      let first ← expression left (some r)
      popped 1
      let last ← combine op r r.adjacent
      return second ++ [push r] ++ first ++ [pop r.adjacent] ++ last
  | .unary .addressOf operand => address operand out
  | .unary .negate operand => do
    let code ← expression operand out
    return code ++ (out.map neg).toList
  | .unary .bitNot operand => do
    let code ← expression operand out
    return code ++ (out.map Code.not).toList
  | .unary .logicalNot operand => do
    let code ← expression operand out
    match out with
    | none => return code
    | some r =>
      let truth ← truthValue jiz r
      return code ++ [test r] ++ truth
  | .unary .dereference operand => do
    let code ← expression operand out
    return code ++ (out.map fun r => load r r).toList
  | .call callee arguments => do
    let code ← pushArguments arguments (out.getD .result).adjacent
    popped arguments.length
    return code ++ [call (.function ⟨callee, arguments.length⟩)] ++
      (out.map fun r => mov r .result).toList ++ release .result arguments.length

/-- The code that evaluates expressions through a register and pushes their values. -/
def pushArguments (es : List Expr) (scratch : Register) : Generator Code :=
  match es with
  | [] => return []
  | e :: es => do
    let first ← expression e (some scratch)
    pushed 1
    let rest ← pushArguments es scratch
    return first ++ [push scratch] ++ rest

/-- The code of an address: that of a variable, or the one that is dereferenced. -/
def address (e : Expr) (out : Option Register) : Generator Code :=
  match e with
  | .name text =>
    match out with
    | none => return []
    | some r => do
      let n ← offset text
      return addressAt n r
  | .unary .dereference operand => expression operand out
  | _ => fail (.violation .addressOfRvalue)

end

/-! ### Statements -/

mutual

def statement (s : Stmt) : Generator Code :=
  match s with
  | .ifElse condition body otherwise => do
    let id ← freshId
    let test ← expression condition (some ifCondition)
    let first ← block body
    let second ← block otherwise
    if otherwise.isEmpty then
      return test ++ [Code.test ifCondition, jiz (.endIf id)] ++ first ++ [label (.endIf id)]
    else
      return test ++ [Code.test ifCondition, jiz (.otherwise id)] ++ first ++
        [jmp (.endIf id), label (.otherwise id)] ++ second ++ [label (.endIf id)]
  | .whileDo condition body => do
    let id ← freshId
    let test ← expression condition (some whileCondition)
    let inner ← inLoop ⟨.loop id, .endLoop id⟩ (block body)
    return [label (.loop id)] ++ test ++ [Code.test whileCondition, jiz (.endLoop id)] ++ inner ++
      [jmp (.loop id), label (.endLoop id)]
  | .forDo counter start condition step body => do
    let id ← freshId
    let place ← address counter (some countAddress)
    pushed 1
    let first ← expression start (some countValue)
    let test ← expression condition (some countValue)
    let inner ← inLoop ⟨.nextCount id, .endCount id⟩ (block body)
    let last ← expression step (some countValue)
    popped 1
    return place ++ [push countAddress] ++
      first ++ [load countAddress .stack, store countAddress countValue] ++
      [label (.count id)] ++ test ++ [Code.test countValue, jiz (.endCount id)] ++ inner ++
      [label (.nextCount id)] ++ last ++
      [load countAddress .stack, load countScratch countAddress, add countScratch countValue,
        store countAddress countScratch, jmp (.count id)] ++
      [label (.endCount id), pop .result]
  | .ret none => do
    let f ← frame
    return release .result f.depth ++ [ret]
  | .ret (some value) => do
    let code ← expression value (some returnValue)
    let f ← frame
    return code ++ release .result f.depth ++ [mov .result returnValue, ret]
  | .breakLoop => do
    match ← loop with
    | some l => return [jmp l.exit]
    | none => fail (.violation .breakOutsideLoop)
  | .continueLoop => do
    match ← loop with
    | some l => return [jmp l.next]
    | none => fail (.violation .continueOutsideLoop)
  | .assign target value => do
    let place ← address target (some assignValue)
    pushed 1
    let code ← expression value (some assignValue)
    popped 1
    return place ++ [push assignValue] ++ code ++ [pop .result, store .result assignValue]
  | .exec e => expression e none

def block (ss : List Stmt) : Generator Code :=
  match ss with
  | [] => return []
  | s :: ss => do
    let first ← statement s
    let rest ← block ss
    return first ++ rest

end

end WordMachine.Compiler
