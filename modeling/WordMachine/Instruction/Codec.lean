import WordMachine.Instruction
import WordMachine.Word

/-!
# Instructions in bytes

An instruction is its opcode's byte and then its operands: a byte for each register and four bytes,
least significant first, for a value. Decoding accepts exactly what encoding produces, whatever
follows (`decode_encode_append`, `eq_encode_append_of_decode`).
-/

namespace WordMachine

/-- Why no instruction can be read. -/
inductive DecodeError
  /-- the first byte names no opcode -/
  | invalidOpcode (byte : UInt8)
  /-- the bytes end before the instruction does -/
  | truncated
deriving DecidableEq

namespace Operands

def encode {s : Shape} : Operands Word s → List UInt8
  | none => []
  | reg a => [a.index]
  | regReg a b => [a.index, b.index]
  | regVal a v => a.index :: v.lowBytes 4
  | label t => t.lowBytes 4

/-- Reads operands of a shape from the front of a list of bytes. -/
def decode? : (s : Shape) → List UInt8 → Option (Operands Word s)
  | .simple, _ => some none
  | .reg, a :: _ => some (reg ⟨a⟩)
  | .regReg, a :: b :: _ => some (regReg ⟨a⟩ ⟨b⟩)
  | .regVal, a :: b₀ :: b₁ :: b₂ :: b₃ :: _ => some (regVal ⟨a⟩ (Word.ofBytes [b₀, b₁, b₂, b₃]))
  | .label, b₀ :: b₁ :: b₂ :: b₃ :: _ => some (label (Word.ofBytes [b₀, b₁, b₂, b₃]))
  | _, _ => .none

theorem length_encode {s : Shape} (x : Operands Word s) : x.encode.length = s.size := by
  cases x <;> simp [encode, Shape.size]

theorem decode?_encode_append {s : Shape} (x : Operands Word s) (rest : List UInt8) :
    decode? s (x.encode ++ rest) = some x := by
  cases x with
  | none => rfl
  | reg a => rfl
  | regReg a b => rfl
  | regVal a v => exact congrArg (fun w => some (regVal a w)) v.ofBytes_lowBytes
  | label t => exact congrArg (fun w => some (label w)) t.ofBytes_lowBytes

theorem eq_encode_append_of_decode? {s : Shape} {bytes : List UInt8} {x : Operands Word s}
    (h : decode? s bytes = some x) : bytes = x.encode ++ bytes.drop s.size := by
  fun_cases decode? s bytes <;> simp_all [decode?] <;> subst h <;>
    simp [encode, Shape.size, Word.lowBytes_ofBytes]

theorem isSome_decode? {s : Shape} {bytes : List UInt8} (h : s.size ≤ bytes.length) :
    (decode? s bytes).isSome := by
  match s, bytes, h with
  | .simple, _, _ => rfl
  | .reg, _ :: _, _ => rfl
  | .regReg, _ :: _ :: _, _ => rfl
  | .regVal, _ :: _ :: _ :: _ :: _ :: _, _ => rfl
  | .label, _ :: _ :: _ :: _ :: _, _ => rfl

theorem decode?_eq_none_iff {s : Shape} {bytes : List UInt8} :
    decode? s bytes = .none ↔ bytes.length < s.size := by
  constructor
  · intro h
    by_cases hl : s.size ≤ bytes.length
    · have := isSome_decode? hl
      simp [h] at this
    · omega
  · intro h
    cases hx : decode? s bytes with
    | none => rfl
    | some x =>
      have := congrArg List.length (eq_encode_append_of_decode? hx)
      simp [length_encode] at this
      omega

end Operands

namespace Instruction

def encode (i : Instruction Word) : List UInt8 := i.opcode.code :: i.operands.encode

def decode : List UInt8 → Except DecodeError (Instruction Word)
  | [] => .error .truncated
  | b :: bytes =>
    match Opcode.ofCode? b with
    | none => .error (.invalidOpcode b)
    | some o =>
      match Operands.decode? o.shape bytes with
      | none => .error .truncated
      | some x => .ok ⟨o, x⟩

/-- Reads a register and moves past it. -/
def nextRegister (bytes : List UInt8) (cursor : Nat) : Except DecodeError (Register × Nat) :=
  match bytes.drop cursor with
  | b :: _ => .ok (⟨b⟩, cursor + 1)
  | [] => .error .truncated

def nextWord (bytes : List UInt8) (cursor : Nat) : Except DecodeError (Word × Nat) :=
  match bytes.drop cursor with
  | b₀ :: b₁ :: b₂ :: b₃ :: _ => .ok (Word.ofBytes [b₀, b₁, b₂, b₃], cursor + 4)
  | _ => .error .truncated

def nextOperands (bytes : List UInt8) (cursor : Nat) :
    (s : Shape) → Except DecodeError (Operands Word s × Nat)
  | .simple => .ok (.none, cursor)
  | .reg => do
    let (a, cursor) ← nextRegister bytes cursor
    return (.reg a, cursor)
  | .regReg => do
    let (a, cursor) ← nextRegister bytes cursor
    let (b, cursor) ← nextRegister bytes cursor
    return (.regReg a b, cursor)
  | .regVal => do
    let (a, cursor) ← nextRegister bytes cursor
    let (v, cursor) ← nextWord bytes cursor
    return (.regVal a v, cursor)
  | .label => do
    let (t, cursor) ← nextWord bytes cursor
    return (.label t, cursor)

/-- Reads the instruction at an offset, operand by operand, and says where it has come to. -/
def decodeAt (bytes : List UInt8) (offset : Nat) : Except DecodeError (Instruction Word × Nat) :=
  match bytes.drop offset with
  | [] => .error .truncated
  | b :: _ =>
    match Opcode.ofCode? b with
    | none => .error (.invalidOpcode b)
    | some o => (nextOperands bytes (offset + 1) o.shape).map fun (x, cursor) => (⟨o, x⟩, cursor)

theorem drop_succ_of_cons {bytes rest : List UInt8} {b : UInt8} {cursor : Nat}
    (h : bytes.drop cursor = b :: rest) : bytes.drop (cursor + 1) = rest := by
  rw [← List.drop_drop, h]
  rfl

theorem nextOperands_eq (bytes : List UInt8) (cursor : Nat) (s : Shape) :
    nextOperands bytes cursor s =
      match Operands.decode? s (bytes.drop cursor) with
      | some x => .ok (x, cursor + s.size)
      | none => .error .truncated := by
  cases s with
  | simple => rfl
  | label =>
    rw [nextOperands, nextWord]
    rcases bytes.drop cursor with _ | ⟨b₀, _ | ⟨b₁, _ | ⟨b₂, _ | ⟨b₃, rest⟩⟩⟩⟩ <;> rfl
  | reg =>
    rw [nextOperands, nextRegister]
    cases bytes.drop cursor <;> rfl
  | regReg =>
    rw [nextOperands, nextRegister]
    cases h : bytes.drop cursor with
    | nil => rfl
    | cons a rest =>
      have ht := drop_succ_of_cons h
      simp only [bind, Except.bind, nextRegister, ht]
      cases rest <;> rfl
  | regVal =>
    rw [nextOperands, nextRegister]
    cases h : bytes.drop cursor with
    | nil => rfl
    | cons a rest =>
      have ht := drop_succ_of_cons h
      simp only [bind, Except.bind, nextWord, ht]
      rcases rest with _ | ⟨b₀, _ | ⟨b₁, _ | ⟨b₂, _ | ⟨b₃, rest⟩⟩⟩⟩ <;> rfl

/-- The bytes read are those of the front of what is left, and as many as the instruction has. -/
theorem decodeAt_eq (bytes : List UInt8) (offset : Nat) :
    decodeAt bytes offset = (decode (bytes.drop offset)).map fun i => (i, offset + i.size) := by
  rw [decodeAt]
  cases h : bytes.drop offset with
  | nil => rfl
  | cons b rest =>
    simp only [decode]
    cases Opcode.ofCode? b with
    | none => rfl
    | some o =>
      simp only [nextOperands_eq, drop_succ_of_cons h]
      cases Operands.decode? o.shape rest with
      | none => rfl
      | some x => simp [Except.map, size, Opcode.size, Nat.add_assoc]

theorem length_encode (i : Instruction Word) : i.encode.length = i.size := by
  simp [encode, size, Opcode.size, Operands.length_encode]
  omega

theorem decode_encode_append (i : Instruction Word) (rest : List UInt8) :
    decode (i.encode ++ rest) = .ok i := by
  simp [encode, decode, Opcode.ofCode?_code, Operands.decode?_encode_append]

theorem eq_encode_append_of_decode {bytes : List UInt8} {i : Instruction Word}
    (h : decode bytes = .ok i) : bytes = i.encode ++ bytes.drop i.size := by
  match bytes with
  | [] => simp [decode] at h
  | b :: bytes =>
    cases ho : Opcode.ofCode? b with
    | none => simp [decode, ho] at h
    | some o =>
      cases hx : Operands.decode? o.shape bytes with
      | none => simp [decode, ho, hx] at h
      | some x =>
        simp only [decode, ho, hx, Except.ok.injEq] at h
        subst h
        have hb := Opcode.ofCode?_eq_some_iff.1 ho
        have hx' := Operands.eq_encode_append_of_decode? hx
        simp [encode, size, Opcode.size, Nat.add_comm 1, hb, ← hx']

end Instruction

end WordMachine
