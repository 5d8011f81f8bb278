import WordMachine.Word

/-!
# Flags

Three flags tell of the last result: whether it was zero, whether its highest bit was set, and whether
the last addition or subtraction went past the end of the words.
-/

namespace WordMachine

structure Flags where
  zero : Bool
  sign : Bool
  overflow : Bool
deriving DecidableEq

namespace Flags

def clear : Flags := ⟨false, false, false⟩

/-- Zero and sign of a result. Overflow stays as it is. -/
def describe (f : Flags) (w : Word) : Flags := ⟨w = 0, w.signed < 0, f.overflow⟩

/-- The text of the flags, a digit for each. -/
def text (f : Flags) : String :=
  let digit (b : Bool) := if b then "1" else "0"
  "Z=" ++ digit f.zero ++ " S=" ++ digit f.sign ++ " O=" ++ digit f.overflow

end Flags

end WordMachine
