import WordMachine.Compiler.Body
import WordMachine.Source.Parse

/-!
# Compiling a program

A compiled program calls `main` and jumps to its end. Then come the functions that every program has,
and the program's own functions in order. Before a program is compiled, each function must be defined
once, each called function must be defined, and so must `main`.
-/

namespace WordMachine.Compiler

open Source Code

/-- The call of `main`, and the functions that every program has. The argument of `printchar` lies
just above its return address. -/
def preamble : Code :=
  [call (.function .main), jmp .programEnd,
    label (.function .printchar), set .result 4, add .result .stack, load .result .result,
    output .result, ret,
    label (.function .readchar), input .result, ret]

def function (f : Function) (nextId : Nat) : Except Error (Code × Nat) :=
  let frame : Frame := ⟨f.parameters, f.locals, 0⟩
  match block f.body ⟨nextId, frame, none⟩ with
  | .ok (body, after) =>
    .ok ([.blank, label (.function f.signature)] ++ reserve frameSize f.locals.length ++ body ++
      release frameSize f.locals.length ++ [ret], after.nextId)
  | .error (.violation v) => .error (.violation f.name v)
  | .error (.defect d) => .error (.defect d)

/-- The code of functions, of which the first has this first label number. -/
def functions : List Function → Nat → Except Error Code
  | [], _ => .ok []
  | f :: fs, nextId => do
    let (first, nextId) ← function f nextId
    let rest ← functions fs nextId
    return first ++ rest

/-- The first function that is defined already, given the signatures before it. -/
def duplicate? : (before : List Signature) → List Function → Option Signature
  | _, [] => none
  | before, f :: fs =>
    if f.signature ∈ before then some f.signature else duplicate? (before ++ [f.signature]) fs

/-- The signatures that a program may call. -/
def defined (fs : List Function) : List Signature :=
  Signature.builtins ++ fs.map Function.signature

/-- The first call of a function that is not defined, with its caller. -/
def undefined? (fs : List Function) : Option (String × Signature) :=
  fs.findSome? fun f => (f.callees.find? (· ∉ defined fs)).map fun callee => (f.name, callee)

def check (fs : List Function) : Except Error Unit :=
  match duplicate? Signature.builtins fs with
  | some s => .error (.duplicateFunction s)
  | none =>
    match undefined? fs with
    | some (caller, callee) => .error (.undefinedFunction caller callee)
    | none => if Signature.main ∈ defined fs then .ok () else .error .missingMain

def compileFunctions (fs : List Function) : Except Error Code := do
  check fs
  let code ← functions fs 0
  return preamble ++ code ++ [label .programEnd]

def compile (text : String) : Except Error Code :=
  match parse text with
  | .error e => .error (.parse e)
  | .ok fs => compileFunctions fs

end WordMachine.Compiler
