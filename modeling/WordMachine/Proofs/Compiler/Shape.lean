import WordMachine.Compiler.Code
import WordMachine.Proofs.Machine.Effects

/-!
# Shapes of the stack

What is known of the words that a function has pushed since it was entered, at each line of its code.
A word is the address of a variable or anything at all. A line takes one shape to another, and a label
has one shape, whatever path leads to it.
-/

namespace WordMachine.Compiler

open Assembly

/-! ### Shapes -/

/-- What is known of a word on the stack. A height counts words downward from the return address, so
that local variables have heights from one on and parameters heights below zero. -/
inductive Content
  | any
  /-- the address of the word at a height -/
  | slot (height : Int)
deriving DecidableEq

/-- What is known of a register. -/
inductive Fact
  | number (n : Nat)
  /-- the address of the word at a height -/
  | slot (height : Int)
deriving DecidableEq

/-- The words pushed since a function was entered, the last one first, and what is known of a
register. -/
structure Shape where
  words : List Content
  known : Option (Register × Fact)
deriving DecidableEq

/-- A function's number of local variables and of parameters, and whether it may store to its
variables alone. -/
structure Setting where
  locals : Nat
  arity : Nat
  safe : Prop

/-- The height is that of a local variable or of a parameter. -/
def Setting.Variable (s : Setting) (height : Int) : Prop :=
  1 ≤ height ∧ height ≤ s.locals ∨ -(s.arity : Int) ≤ height ∧ height ≤ -1

def Label.id? : Label → Option Nat
  | function _ | programEnd => none
  | truth id | otherwise id | endIf id | loop id | endLoop id | count id | nextCount id
  | endCount id => some id

/-- An instruction that changes registers other than the stack pointer, and nothing else. -/
structure Quiet (i : Instruction Value) : Prop where
  stack : .stack ∉ i.written
  instruction : .instruction ∉ i.written
  stores : i.stores = false

/-! ### Lines -/

/-- A line takes one shape to another, if numbered labels have these shapes. -/
inductive Allowed (s : Setting) (shapeOf : Nat → List Content) : Shape → Line → Shape → Prop
  | blank {w k} : Allowed s shapeOf ⟨w, k⟩ .blank ⟨w, none⟩
  | label {l : Label} {i k} : l.id? = some i →
      Allowed s shapeOf ⟨shapeOf i, k⟩ (Code.label l) ⟨shapeOf i, none⟩
  | entry {g k} : Allowed s shapeOf ⟨[], k⟩ (Code.label (.function g)) ⟨[], none⟩
  | number {w k r n} : r ≠ .stack → r ≠ .instruction →
      Allowed s shapeOf ⟨w, k⟩ (Code.set r n) ⟨w, some (r, .number n)⟩
  | reserve {r} : Allowed s shapeOf ⟨[], some (r, .number (4 * s.locals))⟩ (Code.sub .stack r)
      ⟨List.replicate s.locals .any, none⟩
  | release {top w r} : Allowed s shapeOf ⟨top ++ w, some (r, .number (4 * top.length))⟩
      (Code.add .stack r) ⟨w, none⟩
  | top {w k r} : r ≠ .stack → r ≠ .instruction →
      Allowed s shapeOf ⟨w, k⟩ (Code.mov r .stack) ⟨w, some (r, .slot w.length)⟩
  | address {w r n} : r ≠ .stack → r ≠ .instruction →
      Allowed s shapeOf ⟨w, some (r, .number (4 * n))⟩ (Code.add r .stack)
        ⟨w, some (r, .slot (w.length - n))⟩
  | push {w k r} : s.locals ≤ w.length →
      Allowed s shapeOf ⟨w, k⟩ (Code.push r) ⟨.any :: w, none⟩
  | pushSlot {w r z} : s.locals ≤ w.length →
      Allowed s shapeOf ⟨w, some (r, .slot z)⟩ (Code.push r) ⟨.slot z :: w, none⟩
  | pop {c w k r} : r ≠ .stack → r ≠ .instruction →
      Allowed s shapeOf ⟨c :: w, k⟩ (Code.pop r) ⟨w, none⟩
  | popSlot {z w k r} : r ≠ .stack → r ≠ .instruction →
      Allowed s shapeOf ⟨.slot z :: w, k⟩ (Code.pop r) ⟨w, some (r, .slot z)⟩
  | loadSlot {z w k r} : r ≠ .stack → r ≠ .instruction →
      Allowed s shapeOf ⟨.slot z :: w, k⟩ (Code.load r .stack) ⟨.slot z :: w, some (r, .slot z)⟩
  | store {w k a b} : (s.safe → ∃ z, k = some (a, .slot z) ∧ s.Variable z) →
      Allowed s shapeOf ⟨w, k⟩ (Code.store a b) ⟨w, none⟩
  | call {w k g} : (∀ i < g.arity, w[i]? = some .any) →
      Allowed s shapeOf ⟨w, k⟩ (Code.call (.function g)) ⟨w, none⟩
  | jump {l : Label} {i k w} : l.id? = some i →
      Allowed s shapeOf ⟨shapeOf i, k⟩ (Code.jmp l) ⟨w, none⟩
  | branch {line c i k} {l : Label} : Machine.Branches line c → l.id? = some i →
      Allowed s shapeOf ⟨shapeOf i, k⟩ (line l) ⟨shapeOf i, none⟩
  | ret {k w} : Allowed s shapeOf ⟨[], k⟩ Code.ret ⟨w, none⟩
  | quiet {w k i} : Quiet i → Allowed s shapeOf ⟨w, k⟩ (.instruction i) ⟨w, none⟩
  | keep {w r z i} : Quiet i → r ∉ i.written → r ≠ .instruction →
      Allowed s shapeOf ⟨w, some (r, .slot z)⟩ (.instruction i) ⟨w, some (r, .slot z)⟩

/-- Lines take one shape to another, one after another. What is known of a register may be forgotten
after the last. -/
inductive Typed (s : Setting) (shapeOf : Nat → List Content) : Shape → Code → Shape → Prop
  | nil {σ} : Typed s shapeOf σ [] σ
  | forget {w k} : Typed s shapeOf ⟨w, k⟩ [] ⟨w, none⟩
  | cons {σ σ₁ σ₂ line rest} : Allowed s shapeOf σ line σ₁ → Typed s shapeOf σ₁ rest σ₂ →
      Typed s shapeOf σ (line :: rest) σ₂

variable {s : Setting} {shapeOf : Nat → List Content} {σ σ₁ σ₂ : Shape} {w : List Content}
  {k : Option (Register × Fact)} {line : Line} {code rest : Code}

theorem Allowed.weaken (h : Allowed s shapeOf ⟨w, none⟩ line σ) : Allowed s shapeOf ⟨w, k⟩ line σ := by
  cases h with
  | blank => exact .blank
  | label hi => exact .label hi
  | entry => exact .entry
  | number hr hi => exact .number hr hi
  | top hr hi => exact .top hr hi
  | push hl => exact .push hl
  | pop hr hi => exact .pop hr hi
  | popSlot hr hi => exact .popSlot hr hi
  | loadSlot hr hi => exact .loadSlot hr hi
  | store hs =>
    refine .store fun hsafe => ?_
    obtain ⟨z, hz, _⟩ := hs hsafe
    cases hz
  | call ha => exact .call ha
  | jump hi => exact .jump hi
  | branch hb hi => exact .branch hb hi
  | ret => exact .ret
  | quiet hq => exact .quiet hq

/-- Code needs nothing to be known of a register that it can do without. -/
theorem Typed.weaken (h : Typed s shapeOf ⟨w, none⟩ code σ) : Typed s shapeOf ⟨w, k⟩ code σ := by
  cases h with
  | nil => exact .forget
  | forget => exact .forget
  | cons ha ht => exact .cons ha.weaken ht

theorem Typed.append (h : Typed s shapeOf σ code σ₁) (h' : Typed s shapeOf σ₁ rest σ₂) :
    Typed s shapeOf σ (code ++ rest) σ₂ := by
  induction h with
  | nil => exact h'
  | forget => exact h'.weaken
  | cons ha _ ih => exact .cons ha (ih h')

theorem Typed.single (h : Allowed s shapeOf σ line σ₁) : Typed s shapeOf σ [line] σ₁ := .cons h .nil

theorem Typed.split {a b : Code} (h : Typed s shapeOf σ (a ++ b) σ₂) :
    ∃ σ₁, Typed s shapeOf σ a σ₁ ∧ Typed s shapeOf σ₁ b σ₂ := by
  induction a generalizing σ with
  | nil => exact ⟨σ, .nil, h⟩
  | cons l a ih =>
    cases h with
    | cons ha ht =>
      obtain ⟨σ₁, h₁, h₂⟩ := ih ht
      exact ⟨σ₁, .cons ha h₁, h₂⟩

end WordMachine.Compiler
