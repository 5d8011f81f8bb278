import WordMachine.Text.Numeral

/-!
# Registers

A machine has 256 registers. The last two have names of their own: `RS`, the stack pointer, and `RI`,
the instruction pointer. Every register's printed name reads back as that register (`ofName?_name`).
-/

namespace WordMachine

structure Register where
  index : UInt8
deriving DecidableEq

namespace Register

/-- The stack pointer, `RS`. -/
def stack : Register := ⟨254⟩

/-- The instruction pointer, `RI`. -/
def instruction : Register := ⟨255⟩

/-- The register in which a function leaves its result, `R0`. -/
def result : Register := ⟨0⟩

/-- The next register among `R1` to `R250`, going round from the last to the first. -/
def adjacent (r : Register) : Register := ⟨r.index % 250 + 1⟩

/-- The proper name of a register, if it has one. -/
def alias? (r : Register) : Option String :=
  if r = stack then some "RS" else if r = instruction then some "RI" else none

def name (r : Register) : String := r.alias?.getD ("R" ++ r.index.toNat.repr)

/-- Reads `RS`, `RI`, or `R` with one to three decimal digits of value at most 255. -/
def ofName? (text : String) : Option Register :=
  match text.toList with
  | ['R', 'S'] => some stack
  | ['R', 'I'] => some instruction
  | 'R' :: digits =>
    match Numeral.natural? digits with
    | some n => if digits.length ≤ 3 ∧ n < 256 then some ⟨UInt8.ofNat n⟩ else none
    | none => none
  | _ => none

/-! ### Names -/

theorem ofName?_numbered {cs : List Char} {n : Nat} (h : Numeral.natural? cs = some n)
    (hl : cs.length ≤ 3) (hn : n < 256) :
    ofName? (String.ofList ('R' :: cs)) = some ⟨UInt8.ofNat n⟩ := by
  match cs, h with
  | [], h => simp [Numeral.natural?] at h
  | [c], h =>
    have hS : c ≠ 'S' := by rintro rfl; simp [Numeral.natural?] at h
    have hI : c ≠ 'I' := by rintro rfl; simp [Numeral.natural?] at h
    simp [ofName?, h, hS, hI, hn]
  | c :: d :: cs, h =>
    have hl' : (c :: d :: cs).length ≤ 3 ∧ n < 256 := ⟨hl, hn⟩
    simp only [ofName?, String.toList_ofList, h]
    rw [if_pos hl']

theorem ofName?_name (r : Register) : ofName? r.name = some r := by
  by_cases hs : r = stack
  · subst hs
    decide
  · by_cases hi : r = instruction
    · subst hi
      decide
    · have hn := r.index.toNat_lt
      have hl : (Nat.toDigits 10 r.index.toNat).length ≤ 3 :=
        (Nat.length_toDigits_le_iff (by omega) (by omega)).2 (by omega)
      have hname : r.name = String.ofList ('R' :: r.index.toNat.repr.toList) := by
        simp [name, alias?, hs, hi, ← String.toList_inj]
      rw [hname, ofName?_numbered (Numeral.natural?_repr _) (by simpa using hl) (by omega)]
      simp

end Register

end WordMachine
