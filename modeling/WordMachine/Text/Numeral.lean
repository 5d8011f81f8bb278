/-!
# Numbers in text

Decimal numbers are read here; they are written by `Nat.repr` and `Int.repr`, and what is written
reads back (`natural?_repr`, `integer?_repr`). Hexadecimal numbers are only written.
-/

namespace WordMachine.Numeral

/-- The number named by a nonempty run of decimal digits. -/
def natural? (cs : List Char) : Option Nat :=
  if cs ≠ [] ∧ cs.all Char.isDigit then some (Nat.ofDigitChars 10 cs 0) else none

/-- The integer named by decimal digits with at most one minus sign before them. -/
def integer? : List Char → Option Int
  | '-' :: cs => (natural? cs).map fun n => -(n : Int)
  | cs => (natural? cs).map fun n => (n : Int)

/-- Hexadecimal digits in lower case, padded with zeros to a width. -/
def hex (width n : Nat) : String :=
  let digits := Nat.toDigits 16 n
  String.ofList (List.replicate (width - digits.length) '0' ++ digits)

/-! ### Reading what was written -/

theorem isDigit_of_mem_repr {n : Nat} {c : Char} (h : c ∈ n.repr.toList) : c.isDigit = true := by
  rw [Nat.toList_repr] at h
  exact Nat.isDigit_of_mem_toDigits (by omega) (by omega) h

theorem natural?_repr (n : Nat) : natural? n.repr.toList = some n := by
  have hd : (Nat.toDigits 10 n).all Char.isDigit = true :=
    List.all_eq_true.2 fun c h => Nat.isDigit_of_mem_toDigits (by omega) (by omega) h
  rw [Nat.toList_repr, natural?, if_pos ⟨Nat.toDigits_ne_nil, hd⟩, Nat.ofDigitChars_ten_toDigits]

theorem integer?_of_natural? {cs : List Char} {n : Nat} (h : natural? cs = some n) :
    integer? cs = some (n : Int) := by
  match cs with
  | '-' :: cs => simp [natural?] at h
  | [] => simp [natural?] at h
  | c :: cs =>
    by_cases hc : c = '-'
    · subst hc
      simp [natural?] at h
    · simp [integer?, hc, h]

theorem integer?_repr (i : Int) : integer? i.repr.toList = some i := by
  match i with
  | .ofNat n => exact integer?_of_natural? (natural?_repr n)
  | .negSucc n =>
    have h : (Int.negSucc n).repr = "-" ++ (n + 1).repr := rfl
    rw [h, String.toList_append]
    show (natural? (n + 1).repr.toList).map (fun n => -(n : Int)) = _
    rw [natural?_repr]
    rfl

end WordMachine.Numeral
