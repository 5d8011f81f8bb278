import WordMachine.Word

/-!
# Words as integers

A word that stands for an integer: which natural number it is, and how it is computed with. An integer
below zero by at most 2^32 stands for its complement. Read as signed, a word stands for the integer next
to zero that it can.
-/

namespace WordMachine.Word

theorem toNat_ofInt (x : Int) : ((ofInt x).toNat : Int) = x % 4294967296 := by
  have hb : 0 ≤ x % 4294967296 := Int.emod_nonneg x (by decide)
  have hlt : x % 4294967296 < 4294967296 := Int.emod_lt_of_pos x (by decide)
  simp only [ofInt, UInt32.ofInt, UInt32.toNat_ofNat']
  omega

theorem toNat_ofInt_of_nonneg {x : Int} (h : 0 ≤ x) (hx : x < 4294967296) :
    ((ofInt x).toNat : Int) = x := by
  rw [toNat_ofInt, Int.emod_eq_of_lt h hx]

theorem toNat_ofInt_of_neg {x : Int} (h : x < 0) (hx : -4294967296 ≤ x) :
    ((ofInt x).toNat : Int) = x + 4294967296 := by
  rw [toNat_ofInt]
  omega

theorem ofInt_toNat (w : Word) : ofInt w.toNat = w := by
  have h := w.toNat_lt
  apply UInt32.toNat_inj.1
  have hw := toNat_ofInt_of_nonneg (x := w.toNat) (by omega) (by omega)
  omega

theorem ofInt_natCast (n : Nat) : ofInt n = UInt32.ofNat n := by
  apply UInt32.toNat_inj.1
  have hn := toNat_ofInt n
  rw [UInt32.toNat_ofNat']
  omega

theorem ofInt_add (x y : Int) : ofInt (x + y) = ofInt x + ofInt y := UInt32.ofInt_add x y

theorem ofInt_sub (x y : Int) : ofInt (x - y) = ofInt x - ofInt y := by
  have h := ofInt_add (x - y) y
  rw [Int.sub_add_cancel] at h
  rw [h, UInt32.add_sub_cancel]

theorem ofInt_four : ofInt 4 = 4 := rfl

theorem ofInt_mul (x y : Int) : ofInt (x * y) = ofInt x * ofInt y := UInt32.ofInt_mul x y

theorem ofInt_neg (x : Int) : ofInt (-x) = -ofInt x := UInt32.ofInt_neg x

theorem toNat_ofNat_of_lt {n : Nat} (h : n < 4294967296) : (UInt32.ofNat n).toNat = n := by
  rw [UInt32.toNat_ofNat']
  exact Nat.mod_eq_of_lt h

/-! ### Signed words -/

theorem signed_eq (w : Word) :
    w.signed = if w.toNat < 2147483648 then (w.toNat : Int) else w.toNat - 4294967296 := by
  have hw : w.signed = if 2 * w.toNat < 2 ^ 32 then (w.toNat : Int) else w.toNat - (2 ^ 32 : Nat) :=
    BitVec.toInt_eq_toNat_cond w.toBitVec
  split at hw <;> split <;> omega

theorem signed_lt_zero_iff (w : Word) : w.signed < 0 ↔ 2147483648 ≤ w.toNat := by
  have hlt := w.toNat_lt
  rw [signed_eq]
  split <;> omega

theorem signed_inj {a b : Word} : a.signed = b.signed ↔ a = b := by
  have ha := a.toNat_lt
  have hb := b.toNat_lt
  rw [signed_eq, signed_eq, ← UInt32.toNat_inj]
  split <;> split <;> omega

theorem signed_ofInt {x : Int} (hlo : -2147483648 ≤ x) (hhi : x < 2147483648) :
    (ofInt x).signed = x := by
  have hx := toNat_ofInt x
  have hlt := (ofInt x).toNat_lt
  rw [signed_eq]
  split <;> omega

theorem ofInt_signed (w : Word) : ofInt w.signed = w := by
  have hw := w.toNat_lt
  apply UInt32.toNat_inj.1
  have h := toNat_ofInt w.signed
  have he := signed_eq w
  split at he <;> omega

end WordMachine.Word
