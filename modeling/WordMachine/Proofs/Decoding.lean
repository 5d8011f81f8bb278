import WordMachine.Proofs.Encoding

/-!
# Reading an instruction at an offset

An instruction is read at an offset if its bytes lie there, and it is the only one whose bytes do. What
else can lie there is a byte that names no opcode, or too few bytes for the operands.
-/

namespace WordMachine

theorem Opcode.ofCode?_eq_none_iff {b : UInt8} : ofCode? b = none ↔ ∀ o : Opcode, o.code ≠ b := by
  constructor
  · intro h o ho
    rw [ofCode?_eq_some_iff.2 ho.symm] at h
    cases h
  · intro h
    cases ho : ofCode? b with
    | none => rfl
    | some o => exact absurd (ofCode?_eq_some_iff.1 ho).symm (h o)

namespace Instruction

variable {bytes : List UInt8} {offset next : Nat} {i : Instruction Word} {e : DecodeError}

/-! ### The front of a list -/

theorem decode_eq_ok_iff : decode bytes = .ok i ↔ i.encode <+: bytes := by
  constructor
  · intro h
    exact ⟨bytes.drop i.size, (eq_encode_append_of_decode h).symm⟩
  · intro h
    rcases h with ⟨rest, rfl⟩
    exact decode_encode_append i rest

theorem decode_eq_invalid_iff {b : UInt8} :
    decode bytes = .error (.invalidOpcode b) ↔ bytes.head? = some b ∧ ∀ o : Opcode, o.code ≠ b := by
  rw [decode_eq_invalidOpcode_iff, Opcode.ofCode?_eq_none_iff]

theorem decode_eq_short_iff : decode bytes = .error .truncated ↔
    bytes = [] ∨ ∃ o : Opcode, bytes.head? = some o.code ∧ bytes.length < o.size := by
  rw [decode_eq_truncated_iff]
  constructor
  · intro h
    rcases h with h | ⟨b, o, hb, ho, hlt⟩
    · exact .inl h
    · rw [Opcode.ofCode?_eq_some_iff.1 ho] at hb
      exact .inr ⟨o, hb, hlt⟩
  · intro h
    rcases h with h | ⟨o, hb, hlt⟩
    · exact .inl h
    · exact .inr ⟨o.code, o, hb, Opcode.ofCode?_code o, hlt⟩

/-- No instruction takes more than six bytes, so that the first six say what is read. -/
theorem decode_take {n : Nat} (hn : 6 ≤ n) (bytes : List UInt8) :
    decode (bytes.take n) = decode bytes := by
  cases hd : decode bytes with
  | ok i =>
    have hlen : i.encode.length ≤ n := by
      rw [length_encode]
      exact Nat.le_trans i.opcode.size_le hn
    rw [decode_eq_ok_iff] at hd ⊢
    exact List.prefix_take_iff.2 ⟨hd, hlen⟩
  | error e =>
    have hhead : (bytes.take n).head? = bytes.head? := by
      cases bytes with
      | nil => rw [List.take_nil]
      | cons b bs =>
        cases n with
        | zero => omega
        | succ n => rfl
    cases e with
    | invalidOpcode b =>
      rw [decode_eq_invalid_iff] at hd ⊢
      rwa [hhead]
    | truncated =>
      rw [decode_eq_short_iff] at hd ⊢
      rcases hd with rfl | ⟨o, hb, hlt⟩
      · exact .inl List.take_nil
      · refine .inr ⟨o, hhead.trans hb, ?_⟩
        rw [List.length_take]
        omega

/-! ### Offsets -/

theorem decodeAt_eq_ok_iff : decodeAt bytes offset = .ok (i, next) ↔
    i.encode <+: bytes.drop offset ∧ next = offset + i.size := by
  rw [decodeAt_eq, ← decode_eq_ok_iff]
  cases hd : decode (bytes.drop offset) with
  | error e =>
    constructor
    · intro h
      cases h
    · intro h
      cases h.1
  | ok j =>
    constructor
    · intro h
      cases h
      exact ⟨rfl, rfl⟩
    · intro h
      rcases h with ⟨⟨⟩, rfl⟩
      rfl

theorem decodeAt_eq_error_iff :
    decodeAt bytes offset = .error e ↔ decode (bytes.drop offset) = .error e := by
  rw [decodeAt_eq]
  cases decode (bytes.drop offset) with
  | error f =>
    constructor
    · intro h
      cases h
      rfl
    · intro h
      cases h
      rfl
  | ok j =>
    constructor
    · intro h
      cases h
    · intro h
      cases h

theorem encode_prefix_drop_iff : i.encode <+: bytes.drop offset ↔
    offset + i.size ≤ bytes.length ∧ (bytes.drop offset).take i.size = i.encode := by
  constructor
  · intro h
    have hlen := h.length_le
    have hpos : 0 < i.size := i.opcode.size_pos
    rw [length_encode, List.length_drop] at hlen
    have htake := List.prefix_iff_eq_take.1 h
    rw [length_encode] at htake
    exact ⟨by omega, htake.symm⟩
  · intro h
    rw [← h.2]
    exact List.take_prefix _ _

/-- Reading is inverse to writing in both directions. An instruction, whose operands have the shape of
its opcode, is read from its bytes, whatever lies before and after them; what is read lies with exactly
its bytes between the offset and the next. Nothing is read where a byte names no opcode, and where the
bytes end before the operands do. -/
theorem decodeAt_exact :
    (∀ (i : Instruction Word) (before after : List UInt8),
      decodeAt (before ++ i.encode ++ after) before.length = .ok (i, before.length + i.size)) ∧
    ∀ (bytes : List UInt8) (offset : Nat),
      (∀ i next, decodeAt bytes offset = .ok (i, next) ↔
        next = offset + i.size ∧ next ≤ bytes.length ∧
          (bytes.drop offset).take (next - offset) = i.encode) ∧
      (∀ b, decodeAt bytes offset = .error (.invalidOpcode b) ↔
        bytes[offset]? = some b ∧ ∀ o : Opcode, o.code ≠ b) ∧
      (decodeAt bytes offset = .error .truncated ↔
        bytes.length ≤ offset ∨
          ∃ o : Opcode, bytes[offset]? = some o.code ∧ bytes.length < offset + 1 + o.shape.size) := by
  refine ⟨fun i before after => ?_, fun bytes offset => ⟨fun i next => ?_, fun b => ?_, ?_⟩⟩
  · rw [decodeAt_eq_ok_iff, List.append_assoc, List.drop_left]
    exact ⟨List.prefix_append _ _, rfl⟩
  · rw [decodeAt_eq_ok_iff, encode_prefix_drop_iff]
    constructor
    · intro h
      rcases h with ⟨⟨hle, htake⟩, rfl⟩
      exact ⟨rfl, hle, by rwa [Nat.add_sub_cancel_left]⟩
    · intro h
      rcases h with ⟨rfl, hle, htake⟩
      rw [Nat.add_sub_cancel_left] at htake
      exact ⟨⟨hle, htake⟩, rfl⟩
  · rw [decodeAt_eq_error_iff, decode_eq_invalid_iff, List.head?_drop]
  · rw [decodeAt_eq_error_iff, decode_eq_short_iff, List.drop_eq_nil_iff]
    refine or_congr Iff.rfl (exists_congr fun o => ?_)
    rw [List.head?_drop, List.length_drop]
    refine and_congr_right fun hb => ?_
    have hlt := (List.getElem?_eq_some_iff.1 hb).1
    rw [Opcode.size]
    omega

end Instruction

end WordMachine
