/-!
# Stack frames

The frame of a function holds its local variables from the top of the stack on, then the return
address and then the arguments, the last one first. Words that are pushed while a statement is
evaluated lie above all of these. Of two equal names the later one counts, and a local variable before
a parameter.
-/

namespace WordMachine.Compiler

def lastIndex? (name : String) : List String → Option Nat
  | [] => none
  | x :: xs =>
    match lastIndex? name xs with
    | some i => some (i + 1)
    | none => if x = name then some 0 else none

/-- The variables of a function, and how many words are pushed above them. -/
structure Frame where
  parameters : List String
  locals : List String
  pushed : Nat
deriving DecidableEq

namespace Frame

/-- The distance in words from the top of the stack to a variable, if there is one of that name. -/
def offset? (f : Frame) (name : String) : Option Nat :=
  let own := (lastIndex? name f.locals).or
    ((lastIndex? name f.parameters).map fun i => f.locals.length + (f.parameters.length - i))
  own.map (· + f.pushed)

/-- The distance in words from the top of the stack to the return address. -/
def depth (f : Frame) : Nat := f.locals.length + f.pushed

def push (f : Frame) (words : Nat) : Frame := { f with pushed := f.pushed + words }

def pop? (f : Frame) (words : Nat) : Option Frame :=
  if words ≤ f.pushed then some { f with pushed := f.pushed - words } else none

@[simp] theorem pop?_push (f : Frame) (words : Nat) : (f.push words).pop? words = some f := by
  simp [push, pop?]

theorem push_push (f : Frame) (n k : Nat) : (f.push n).push k = f.push (n + k) := by
  rw [push, push, push, Nat.add_assoc]

/-! ### Which names have a place -/

theorem isSome_lastIndex?_iff {name : String} {names : List String} :
    (lastIndex? name names).isSome ↔ name ∈ names := by
  induction names with
  | nil => simp [lastIndex?]
  | cons x xs ih =>
    cases h : lastIndex? name xs with
    | some i => simp [lastIndex?, h, ih.1 (by simp [h])]
    | none =>
      have hxs : name ∉ xs := fun hm => by simpa [h] using ih.2 hm
      by_cases hx : x = name
      · simp [lastIndex?, h, hx]
      · simp [lastIndex?, h, hx, hxs, Ne.symm hx]

theorem isSome_offset?_iff {f : Frame} {name : String} :
    (f.offset? name).isSome ↔ name ∈ f.locals ∨ name ∈ f.parameters := by
  simp [offset?, isSome_lastIndex?_iff]

end Frame

end WordMachine.Compiler
