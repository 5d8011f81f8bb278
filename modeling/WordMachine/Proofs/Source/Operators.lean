import WordMachine.Proofs.Word
import WordMachine.Source.Operator

/-!
# What operators mean

Operators work on words. A comparison has the truth value one or zero; less and greater look at the
highest bit of a difference. Division and remainder are those of signed numbers, toward zero, and
have no value for a zero divisor.
-/

namespace WordMachine.Source

def truth (p : Prop) [Decidable p] : Word := if p then 1 else 0

def BinaryOp.apply : BinaryOp → Word → Word → Option Word
  | equal, x, y => some (truth (x = y))
  | less, x, y => some (truth ((x - y).signed < 0))
  | greater, x, y => some (truth ((y - x).signed < 0))
  | add, x, y => some (x + y)
  | subtract, x, y => some (x - y)
  | bitOr, x, y => some (x ||| y)
  | bitXor, x, y => some (x ^^^ y)
  | multiply, x, y => some (x * y)
  | divide, x, y => if y = 0 then none else some (Word.ofInt (x.signed.tdiv y.signed))
  | remainder, x, y => if y = 0 then none else some (Word.ofInt (x.signed.tmod y.signed))
  | bitAnd, x, y => some (x &&& y)

/-! ### The signed operations of the machine -/

theorem toUInt32_eq_ofInt (z : Int32) : z.toUInt32 = Word.ofInt z.toInt := by
  apply UInt32.toNat_inj.1
  have h := Word.toNat_ofInt z.toInt
  have hlt := z.toUInt32.toNat_lt
  have hz : z.toInt = if 2 * z.toUInt32.toNat < 2 ^ 32 then (z.toUInt32.toNat : Int)
      else z.toUInt32.toNat - (2 ^ 32 : Nat) := BitVec.toInt_eq_toNat_cond z.toUInt32.toBitVec
  split at hz <;> omega

theorem ofInt_bmod (x : Int) : Word.ofInt (x.bmod 4294967296) = Word.ofInt x := by
  apply UInt32.toNat_inj.1
  have h := Word.toNat_ofInt x
  have h' := Word.toNat_ofInt (x.bmod 4294967296)
  have hb : x.bmod 4294967296 % 4294967296 = x % 4294967296 := Int.bmod_emod
  omega

theorem ofInt_tdiv (x y : Word) :
    Word.ofInt (x.signed.tdiv y.signed) = (x.toInt32 / y.toInt32).toUInt32 := by
  rw [toUInt32_eq_ofInt, Int32.toInt_div]
  exact (ofInt_bmod _).symm

theorem ofInt_tmod (x y : Word) :
    Word.ofInt (x.signed.tmod y.signed) = (x.toInt32 % y.toInt32).toUInt32 := by
  rw [toUInt32_eq_ofInt, Int32.toInt_mod]
  rfl

theorem multiply_signed (x y : Word) : (x.toInt32 * y.toInt32).toUInt32 = x * y := rfl

theorem xor_eq_zero_iff (x y : Word) : y ^^^ x = 0 ↔ x = y := by
  rw [UInt32.xor_eq_zero_iff, eq_comm]

end WordMachine.Source
