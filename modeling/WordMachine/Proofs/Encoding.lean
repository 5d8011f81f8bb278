import WordMachine.Instruction.Codec

/-!
# Bytes of instructions

No encoding is the beginning of another, so bytes are the encodings of one list of instructions at
most, and a sweep over any bytes reads the longest beginning that is such a list.
-/

namespace WordMachine.Instruction

def encodeAll (is : List (Instruction Word)) : List UInt8 := is.flatMap encode

variable {is js : List (Instruction Word)} {i : Instruction Word} {xs ys bytes : List UInt8}

@[simp] theorem encodeAll_nil : encodeAll [] = [] := rfl

@[simp] theorem encodeAll_cons (i : Instruction Word) (is : List (Instruction Word)) :
    encodeAll (i :: is) = i.encode ++ encodeAll is :=
  List.flatMap_cons

@[simp] theorem encodeAll_append (is js : List (Instruction Word)) :
    encodeAll (is ++ js) = encodeAll is ++ encodeAll js :=
  List.flatMap_append

theorem length_encodeAll_cons (i : Instruction Word) (is : List (Instruction Word)) :
    (encodeAll (i :: is)).length = i.size + (encodeAll is).length := by
  rw [encodeAll_cons, List.length_append, length_encode]

/-! ### Where decoding fails -/

theorem decode_eq_invalidOpcode_iff {b : UInt8} :
    decode bytes = .error (.invalidOpcode b) ↔ bytes.head? = some b ∧ Opcode.ofCode? b = none := by
  cases bytes with
  | nil => simp [decode]
  | cons c bytes =>
    rw [decode, List.head?_cons]
    cases ho : Opcode.ofCode? c with
    | none =>
      constructor
      · rintro ⟨⟩
        exact ⟨rfl, ho⟩
      · rintro ⟨⟨⟩, _⟩
        rfl
    | some o =>
      refine iff_of_false ?_ ?_
      · dsimp only
        cases Operands.decode? o.shape bytes <;> rintro ⟨⟩
      · rintro ⟨⟨⟩, hn⟩
        rw [ho] at hn
        cases hn

theorem decode_eq_truncated_iff :
    decode bytes = .error .truncated ↔
      bytes = [] ∨ ∃ b o, bytes.head? = some b ∧ Opcode.ofCode? b = some o ∧ bytes.length < o.size := by
  cases bytes with
  | nil => simp [decode]
  | cons c bytes =>
    rw [decode, List.head?_cons]
    cases ho : Opcode.ofCode? c with
    | none =>
      constructor
      · rintro ⟨⟩
      · rintro (⟨⟨⟩⟩ | ⟨_, _, ⟨⟩, hs, _⟩)
        rw [ho] at hs
        cases hs
    | some o =>
      have hlen : bytes.length < o.shape.size ↔ (c :: bytes).length < o.size := by
        rw [List.length_cons, Opcode.size]
        omega
      dsimp only
      cases hx : Operands.decode? o.shape bytes with
      | none =>
        refine iff_of_true rfl (.inr ⟨c, o, rfl, ho, ?_⟩)
        exact hlen.1 (Operands.decode?_eq_none_iff.1 hx)
      | some x =>
        refine iff_of_false (by rintro ⟨⟩) ?_
        rintro (⟨⟨⟩⟩ | ⟨_, _, ⟨⟩, hs, hlt⟩)
        rw [ho] at hs
        cases hs
        rw [Operands.decode?_eq_none_iff.2 (hlen.2 hlt)] at hx
        cases hx

/-! ### Sweeps -/

/-- Bytes are instructions and then something else. -/
theorem exists_encodeAll_append (bytes : List UInt8) :
    ∃ is rest e, bytes = encodeAll is ++ rest ∧ decode rest = .error e := by
  cases hd : decode bytes with
  | error e => exact ⟨[], bytes, e, rfl, hd⟩
  | ok i =>
    have heq := eq_encode_append_of_decode hd
    have hlt : bytes.length - i.size < bytes.length := by
      have hlen := congrArg List.length heq
      have hpos : 0 < i.size := i.opcode.size_pos
      rw [List.length_append, length_encode] at hlen
      omega
    obtain ⟨is, rest, e, hrest, he⟩ := exists_encodeAll_append (bytes.drop i.size)
    refine ⟨i :: is, rest, e, ?_, he⟩
    rw [encodeAll_cons, List.append_assoc, ← hrest]
    exact heq
termination_by bytes.length

/-- Other instructions at the beginning of bytes end no later than those before which no instruction
can be read. -/
theorem prefix_of_encodeAll_append {e : DecodeError} (h : encodeAll js ++ xs = encodeAll is ++ ys)
    (he : decode ys = .error e) : js <+: is := by
  induction js generalizing is with
  | nil => exact List.nil_prefix
  | cons j js ih =>
    have hj : decode (encodeAll (j :: js) ++ xs) = .ok j := by
      rw [encodeAll_cons, List.append_assoc, decode_encode_append]
    rw [h] at hj
    cases is with
    | nil =>
      rw [encodeAll_nil, List.nil_append, he] at hj
      cases hj
    | cons i is =>
      rw [encodeAll_cons, List.append_assoc, decode_encode_append] at hj
      cases hj
      simp only [encodeAll_cons, List.append_assoc] at h
      exact List.cons_prefix_cons.2 ⟨rfl, ih (List.append_cancel_left h)⟩

theorem encodeAll_inj : encodeAll is = encodeAll js ↔ is = js := by
  refine ⟨fun h => ?_, congrArg encodeAll⟩
  have hp : ∀ {ks ls : List (Instruction Word)}, encodeAll ks = encodeAll ls → ks <+: ls := by
    intro ks ls hkl
    have hnil : decode [] = .error .truncated := rfl
    exact prefix_of_encodeAll_append (by rw [List.append_nil, List.append_nil, hkl]) hnil
  exact (hp h).eq_of_length_le (hp h.symm).length_le

end WordMachine.Instruction
