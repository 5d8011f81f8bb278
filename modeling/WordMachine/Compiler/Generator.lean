import WordMachine.Assembly.Line
import WordMachine.Compiler.Error
import WordMachine.Compiler.Frame
import WordMachine.Compiler.Label

/-!
# Generators

A generator gives a value, and on the way numbers labels and keeps account of the stack frame and of
the innermost loop. It fails on a violation, or on a defect of its own.
-/

namespace WordMachine.Compiler

open Assembly

/-- Where CONTINUE and BREAK go. -/
structure Loop where
  next : Label
  exit : Label
deriving DecidableEq

/-- The number of the next label, the frame and the innermost loop. -/
structure Context where
  nextId : Nat
  frame : Frame
  loop : Option Loop
deriving DecidableEq

inductive Failure
  | violation (v : Violation)
  | defect (d : Defect)
deriving DecidableEq

/-- A value, and a context for what follows. -/
def Generator (α : Type) : Type := Context → Except Failure (α × Context)

namespace Generator

variable {α β : Type}

def succeed (a : α) : Generator α := fun c => .ok (a, c)

def andThen (g : Generator α) (f : α → Generator β) : Generator β := fun c =>
  match g c with
  | .ok (a, c) => f a c
  | .error e => .error e

instance : Monad Generator where
  pure := succeed
  bind := andThen

def fail (e : Failure) : Generator α := fun _ => .error e

/-- The number of the next label, which is used up. -/
def freshId : Generator Nat := fun c => .ok (c.nextId, { c with nextId := c.nextId + 1 })

def frame : Generator Frame := fun c => .ok (c.frame, c)

def loop : Generator (Option Loop) := fun c => .ok (c.loop, c)

def pushed (words : Nat) : Generator Unit := fun c =>
  .ok ((), { c with frame := c.frame.push words })

def popped (words : Nat) : Generator Unit := fun c =>
  match c.frame.pop? words with
  | some frame => .ok ((), { c with frame })
  | none => .error (.defect .stackUnderflow)

def offset (name : String) : Generator Nat := fun c =>
  match c.frame.offset? name with
  | some n => .ok (n, c)
  | none => .error (.defect (.unknownVariable name))

def inLoop (inner : Loop) (g : Generator α) : Generator α := fun c =>
  match g { c with loop := some inner } with
  | .ok (a, after) => .ok (a, { after with loop := c.loop })
  | .error e => .error e

end Generator

end WordMachine.Compiler
