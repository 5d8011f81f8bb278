import WordMachine.Machine.Host
import WordMachine.Proofs.Source.Operators
import WordMachine.Source.Tree

/-!
# Running programs

What a program without pointers means. A function runs with an environment of its own, reads words and
writes words, and may return a word. The right operand of an operator is evaluated before the left one,
the arguments of a call from left to right, and an expression that stands as a statement only performs
the calls in it. Loops and calls take fuel, so that every run comes to an end.

A run also counts the words of stack that it takes on a machine. A right operand is pushed while the left
one is evaluated, arguments and a return address while a function runs, and the address of a variable
while its new value is evaluated or while it is a counter.
-/

namespace WordMachine.Source

/-! ### Runs -/

/-- Why a run comes to no result. -/
inductive Abort
  | divisionByZero
  /-- a variable is read that nothing was assigned to -/
  | unassigned
  /-- the value of a call is used that returned none -/
  | valueless
  /-- fuel has run out -/
  | exhausted
  /-- a pointer, or a call of a function that is not defined -/
  | meaningless
deriving DecidableEq

/-- What reads words and writes words, and comes to a result or not. What was written stays written. -/
@[ext]
structure Run (α : Type) where
  run : WordQueue → Except Abort α × WordQueue
  /-- the largest number of words that are on the stack at a time -/
  words : WordQueue → Nat
  prefix_run : ∀ q, q.output.toList <+: (run q).2.output.toList

namespace Run

variable {α β : Type}

instance : CoeFun (Run α) fun _ => WordQueue → Except Abort α × WordQueue := ⟨Run.run⟩

def result (a : α) : Run α where
  run q := (.ok a, q)
  words _ := 0
  prefix_run _ := List.prefix_rfl

def andThen (r : Run α) (k : α → Run β) : Run β where
  run q :=
    match r q with
    | (.ok a, q) => k a q
    | (.error e, q) => (.error e, q)
  words q :=
    match r q with
    | (.ok a, q₁) => max (r.words q) ((k a).words q₁)
    | (.error _, _) => r.words q
  prefix_run q := by
    have hr := r.prefix_run q
    rcases hq : r q with ⟨e | a, q₁⟩ <;> rw [hq] at hr
    · exact hr
    · exact hr.trans ((k a).prefix_run q₁)

instance : Monad Run where
  pure := result
  bind := andThen

def abort (e : Abort) : Run α where
  run q := (.error e, q)
  words _ := 0
  prefix_run _ := List.prefix_rfl

/-- Comes to what is there, and else to no result. -/
def demand (e : Abort) : Option α → Run α
  | some a => result a
  | none => abort e

def readWord : Run Word where
  run
    | ⟨[], output⟩ => (.ok endOfInput, ⟨[], output⟩)
    | ⟨w :: input, output⟩ => (.ok w, ⟨input, output⟩)
  words _ := 0
  prefix_run
    | ⟨[], _⟩ => List.prefix_rfl
    | ⟨_ :: _, _⟩ => List.prefix_rfl

def writeWord (w : Word) : Run Unit where
  run q := (.ok (), ⟨q.input, q.output.push w⟩)
  words _ := 0
  prefix_run q := by simp

/-- Runs on top of so many words that are pushed. -/
def pushed (n : Nat) (r : Run α) : Run α where
  run := r
  words q := n + r.words q
  prefix_run := r.prefix_run

/-- Runs on top of so many words that are left free. Without a push to follow they take no stack. -/
def reserved (n : Nat) (r : Run α) : Run α where
  run := r
  words q := if r.words q = 0 then 0 else n + r.words q
  prefix_run := r.prefix_run

theorem bind_assoc {γ : Type} (r : Run α) (k : α → Run β) (l : β → Run γ) :
    r >>= k >>= l = r >>= fun a => k a >>= l := by
  show andThen (andThen r k) l = andThen r fun a => andThen (k a) l
  ext1
  · funext q
    simp only [andThen]
    rcases r q with ⟨e | a, q₁⟩ <;> rfl
  · funext q
    simp only [andThen]
    rcases r q with ⟨e | a, q₁⟩
    · rfl
    · dsimp only
      rcases k a q₁ with ⟨e | b, q₂⟩
      · rfl
      · exact Nat.max_assoc _ _ _

theorem bind_eq_ok {r : Run α} {k : α → Run β} {q q₂ : WordQueue} {b : β} :
    (r >>= k) q = (.ok b, q₂) ↔ ∃ a q₁, r q = (.ok a, q₁) ∧ k a q₁ = (.ok b, q₂) := by
  show andThen r k q = (.ok b, q₂) ↔ _
  simp only [andThen]
  rcases hr : r q with ⟨e | a, q₁⟩
  · simp
  · constructor
    · intro h
      exact ⟨a, q₁, rfl, h⟩
    · rintro ⟨_, _, ⟨⟩, h⟩
      exact h

end Run

open Run

/-! ### Environments -/

/-- The words of the variables that have one. -/
abbrev Env : Type := String → Option Word

namespace Env

def set (env : Env) (x : String) (w : Word) : Env := fun y => if y = x then some w else env y

/-- The environment of a call. Of two equal parameters the later one counts. -/
def ofArguments : List String → List Word → Env
  | x :: xs, w :: ws => fun y => (ofArguments xs ws y).or (if y = x then some w else none)
  | [], _ => fun _ => none
  | _ :: _, [] => fun _ => none

end Env

/-! ### Expressions -/

section

variable (call : Signature → List Word → Run (Option Word))

mutual

def Expr.value : Expr → Env → Run Word
  | .int w, _ => result w
  | .name x, env => demand .unassigned (env x)
  | .binary op left right, env => do
    let y ← right.value env
    let x ← pushed 1 (left.value env)
    demand .divisionByZero (op.apply x y)
  | .unary .negate e, env => do
    let v ← e.value env
    result (-v)
  | .unary .bitNot e, env => do
    let v ← e.value env
    result (~~~v)
  | .unary .logicalNot e, env => do
    let v ← e.value env
    result (truth (v = 0))
  | .unary .dereference _, _ => abort .meaningless
  | .unary .addressOf _, _ => abort .meaningless
  | .call callee arguments, env => do
    let ws ← Expr.values arguments env
    let v ← pushed (arguments.length + 1) (call ⟨callee, arguments.length⟩ ws)
    demand .valueless v

def Expr.values : List Expr → Env → Run (List Word)
  | [], _ => result []
  | e :: es, env => do
    let w ← e.value env
    let ws ← pushed 1 (Expr.values es env)
    result (w :: ws)

end

/-- The calls in an expression, without what the operators would make of their values. -/
def Expr.effects : Expr → Env → Run Unit
  | .int _, _ => result ()
  | .name _, _ => result ()
  | .binary _ left right, env => do
    right.effects env
    left.effects env
  | .unary .negate e, env => e.effects env
  | .unary .bitNot e, env => e.effects env
  | .unary .logicalNot e, env => e.effects env
  | .unary .dereference _, _ => abort .meaningless
  | .unary .addressOf _, _ => abort .meaningless
  | .call callee arguments, env => do
    let ws ← Expr.values call arguments env
    let _ ← pushed (arguments.length + 1) (call ⟨callee, arguments.length⟩ ws)
    result ()

end

theorem Expr.length_of_values {call : Signature → List Word → Run (Option Word)} {es : List Expr}
    {env : Env} {q q₁ : WordQueue} {ws : List Word} (h : Expr.values call es env q = (.ok ws, q₁)) :
    ws.length = es.length := by
  induction es generalizing q ws with
  | nil =>
    rw [Expr.values] at h
    cases h
    rfl
  | cons e es ih =>
    rw [Expr.values] at h
    obtain ⟨w, q₂, _, h⟩ := bind_eq_ok.1 h
    obtain ⟨ws', q₃, hws, h⟩ := bind_eq_ok.1 h
    cases h
    have hlength := ih (show Expr.values call es env q₂ = (.ok ws', q₁) from hws)
    rw [List.length_cons, List.length_cons, hlength]

/-! ### Statements -/

/-- Where a statement goes on. -/
inductive Flow
  | next (env : Env)
  | broke (env : Env)
  | continued (env : Env)
  | returned (value : Option Word)

/-- What a loop does after a pass, if this is how it goes on. -/
def proceed (again : Env → Run Flow) : Flow → Run Flow
  | .next env => again env
  | .continued env => again env
  | .broke env => result (.next env)
  | .returned v => result (.returned v)

/-- A loop that is gone through as long as the test is not zero, by fuel. The step comes after each pass
that is not broken off. -/
def loop (test : Env → Run Word) (body : Env → Run Flow) (step : Env → Run Env) :
    Nat → Env → Run Flow
  | 0, _ => abort .exhausted
  | fuel + 1, env => do
    let v ← test env
    if v = 0 then result (.next env)
    else body env >>= proceed fun env => step env >>= loop test body step fuel

/-- What is added to a counter between the passes of its loop. -/
def advance (call : Signature → List Word → Run (Option Word)) (counter : String) (step : Expr)
    (env : Env) : Run Env := do
  let d ← step.value call env
  let w ← demand .unassigned (env counter)
  result (env.set counter (w + d))

section

variable (call : Signature → List Word → Run (Option Word)) (fuel : Nat)

mutual

def Stmt.run : Stmt → Env → Run Flow
  | .ifElse condition body otherwise, env => do
    let v ← condition.value call env
    if v = 0 then Stmt.runAll otherwise env else Stmt.runAll body env
  | .whileDo condition body, env =>
    loop (condition.value call) (Stmt.runAll body) result fuel env
  | .forDo counter start condition step body, env =>
    match counter with
    | .name x => pushed 1 do
      let v ← start.value call env
      loop (condition.value call) (Stmt.runAll body) (advance call x step) fuel (env.set x v)
    | _ => abort .meaningless
  | .ret none, _ => result (.returned none)
  | .ret (some e), env => do
    let v ← e.value call env
    result (.returned (some v))
  | .breakLoop, env => result (.broke env)
  | .continueLoop, env => result (.continued env)
  | .assign target e, env =>
    match target with
    | .name x => do
      let v ← pushed 1 (e.value call env)
      result (.next (env.set x v))
    | _ => abort .meaningless
  | .exec e, env => do
    e.effects call env
    result (.next env)

def Stmt.runAll : List Stmt → Env → Run Flow
  | [], env => result (.next env)
  | s :: ss, env => do
    match ← s.run env with
    | .next env => Stmt.runAll ss env
    | flow => result flow

end

end

/-! ### Programs -/

def outcome : Flow → Run (Option Word)
  | .returned v => result v
  | _ => result none

/-- Reads a word and returns it. -/
def readchar : Run (Option Word) := do
  let w ← readWord
  result (some w)

/-- Writes its argument and returns it. -/
def printchar : List Word → Run (Option Word)
  | [w] => do
    writeWord w
    result (some w)
  | [] => abort .meaningless
  | _ :: _ :: _ => abort .meaningless

/-- Calls a function, by fuel. -/
def call (fs : List Function) : Nat → Signature → List Word → Run (Option Word)
  | 0, _, _ => abort .exhausted
  | fuel + 1, g, ws =>
    if g = .readchar then readchar
    else if g = .printchar then printchar ws
    else
      match fs.find? fun f => f.signature = g with
      | none => abort .meaningless
      | some f =>
        reserved f.locals.length
          (Stmt.runAll (call fs fuel) fuel f.body (.ofArguments f.parameters ws)) >>= outcome

/-- Runs a program: calls `main`, with nothing on the stack but where to go on. -/
def interpret (fs : List Function) (fuel : Nat) : Run (Option Word) := pushed 1 (call fs fuel .main [])

end WordMachine.Source
