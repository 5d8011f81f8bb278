import WordMachine.Source.Tree

/-!
# Labels of compiled programs

Each function has a label, and so has the end of the program. All other labels are numbered, and the
number is that of the statement or operator that they belong to.
-/

namespace WordMachine.Compiler

open Source

inductive Label
  | function (s : Signature)
  /-- the end of the program -/
  | programEnd
  /-- where a truth value is complete -/
  | truth (id : Nat)
  | otherwise (id : Nat)
  | endIf (id : Nat)
  | loop (id : Nat)
  | endLoop (id : Nat)
  | count (id : Nat)
  | nextCount (id : Nat)
  | endCount (id : Nat)
deriving DecidableEq

def Label.text : Label → String
  | function s => "@func_" ++ s.name ++ "_" ++ s.arity.repr
  | programEnd => "@end"
  | truth id => "@l" ++ id.repr
  | otherwise id => "@else" ++ id.repr
  | endIf id => "@endif" ++ id.repr
  | loop id => "@loop" ++ id.repr
  | endLoop id => "@endloop" ++ id.repr
  | count id => "@for" ++ id.repr
  | nextCount id => "@incfor" ++ id.repr
  | endCount id => "@endfor" ++ id.repr

end WordMachine.Compiler
