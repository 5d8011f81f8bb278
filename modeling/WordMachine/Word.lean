/-!
# Words and their bytes

The machine computes on words of 32 bits and stores them in bytes, least significant byte first.
Reading the four bytes of a word gives the word back (`ofBytes_lowBytes`), and the four bytes of the
word that four bytes spell are those bytes (`lowBytes_ofBytes`).
-/

namespace WordMachine

/-- A word: 32 bits, unsigned unless an operation says otherwise. -/
abbrev Word := UInt32

namespace Word

/-- The lowest `n` bytes of a word, least significant first. -/
def lowBytes : Nat → Word → List UInt8
  | 0, _ => []
  | n + 1, w => w.toUInt8 :: lowBytes n (w / 256)

/-- The word that a list of bytes spells, least significant first. -/
def ofBytes : List UInt8 → Word
  | [] => 0
  | b :: bs => b.toUInt32 + 256 * ofBytes bs

/-- The integer that a word denotes in two's complement. -/
def signed (w : Word) : Int := w.toInt32.toInt

/-- The word congruent to an integer modulo 2^32. -/
def ofInt (i : Int) : Word := UInt32.ofInt i

def text (w : Word) : String := w.toNat.repr

/-! ### Bytes of a word -/

@[simp] theorem length_lowBytes (n : Nat) (w : Word) : (lowBytes n w).length = n := by
  induction n generalizing w with
  | zero => rfl
  | succ n ih => simp [lowBytes, ih]

theorem ofBytes_lowBytes (w : Word) : ofBytes (lowBytes 4 w) = w := by
  apply UInt32.toNat_inj.1
  have := w.toNat_lt
  simp [lowBytes, ofBytes]
  omega

theorem lowBytes_ofBytes (a b c d : UInt8) : lowBytes 4 (ofBytes [a, b, c, d]) = [a, b, c, d] := by
  have ha := a.toNat_lt
  have hb := b.toNat_lt
  have hc := c.toNat_lt
  have hd := d.toNat_lt
  simp only [lowBytes, ofBytes, List.cons.injEq, and_true, ← UInt8.toNat_inj]
  simp
  omega

end Word

end WordMachine
