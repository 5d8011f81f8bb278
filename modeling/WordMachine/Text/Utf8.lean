/-!
# UTF-8

Text in bytes and back. Bytes that are no text can still be shown: each longest piece that begins a
character but does not complete it, and each byte that begins none, is shown as `U+FFFD`.
-/

namespace WordMachine.Utf8

def encode (text : String) : List UInt8 := text.toList.flatMap String.utf8EncodeChar

/-- What a first byte says of the character it begins: how many bytes follow, between which bounds the
first of them lies, and the bits that the first byte contributes. -/
structure Lead where
  following : Nat
  low : UInt8
  high : UInt8
  bits : Nat

/-- The character begun by a byte. The bounds exclude longer forms than needed, surrogates and what
lies above `U+10FFFF`. -/
def lead? (b : UInt8) : Option Lead :=
  if b < 0x80 then some ⟨0, 0x80, 0xBF, b.toNat⟩
  else if b < 0xC2 then none
  else if b < 0xE0 then some ⟨1, 0x80, 0xBF, b.toNat % 32⟩
  else if b < 0xF0 then
    some ⟨2, if b = 0xE0 then 0xA0 else 0x80, if b = 0xED then 0x9F else 0xBF, b.toNat % 16⟩
  else if b < 0xF5 then
    some ⟨3, if b = 0xF0 then 0x90 else 0x80, if b = 0xF4 then 0x8F else 0xBF, b.toNat % 8⟩
  else none

/-- Adds the following bytes to the bits of a character, and gives the bytes not used. The result is
`none` as soon as a byte is missing or out of bounds. -/
def follow : (following : Nat) → (low high : UInt8) → (bits : Nat) → List UInt8 →
    Option Nat × List UInt8
  | 0, _, _, bits, rest => (some bits, rest)
  | _ + 1, _, _, _, [] => (none, [])
  | n + 1, low, high, bits, b :: rest =>
    if low ≤ b ∧ b ≤ high then follow n 0x80 0xBF (64 * bits + b.toNat % 64) rest
    else (none, b :: rest)

theorem length_follow_le (n : Nat) (low high : UInt8) (bits : Nat) (bytes : List UInt8) :
    (follow n low high bits bytes).2.length ≤ bytes.length := by
  induction n generalizing low high bits bytes with
  | zero => simp [follow]
  | succ n ih =>
    cases bytes with
    | nil => simp [follow]
    | cons b rest =>
      simp only [follow]
      split
      · exact Nat.le_succ_of_le (ih _ _ _ _)
      · simp

/-- The characters of a list of bytes, with `none` in place of each piece that is none. -/
def pieces : List UInt8 → List (Option Char)
  | [] => []
  | b :: rest =>
    match lead? b with
    | none => none :: pieces rest
    | some l =>
      let after := follow l.following l.low l.high l.bits rest
      have := length_follow_le l.following l.low l.high l.bits rest
      after.1.map Char.ofNat :: pieces after.2
termination_by bytes => bytes.length

/-- The text of bytes that are text. -/
def decode? (bytes : List UInt8) : Option String := ((pieces bytes).mapM id).map String.ofList

/-- The text of bytes, with `U+FFFD` for what is no text. -/
def decodeLossy (bytes : List UInt8) : String :=
  String.ofList ((pieces bytes).map (·.getD '\uFFFD'))

end WordMachine.Utf8
