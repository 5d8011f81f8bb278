import WordMachine.Proofs.Assembly.Listing

/-!
# Assembling and disassembling

A program and its listing determine each other: the listing assembles to the program, and the programs
that can be listed are those that some text assembles to.
-/

namespace WordMachine.Assembly

open Instruction (encodeAll)

/-- The text of a listing assembles to the bytes that were listed. Each label in it is declared once
and stands in an instruction, and the table has it at the offset it names. -/
theorem disassembly_reassembles {b : List UInt8} {t : String} (h : disassemble b = .ok t) :
    assemble t = .ok b ∧ ∃ ls first labels, Reads (lines t) ls ∧
      pass false .empty t = (.ok first, labels) ∧ pass true labels t = (.ok b, labels) ∧
      (declarations ls).Nodup ∧ (∀ name, name ∈ declarations ls ↔ name ∈ references ls) ∧
      (∀ name ∈ declarations ls,
        (∃ n, name = offsetLabel n ∧ n < 4294967296 ∧
          labels.get? name = some (UInt32.ofNat n)) ∨
        name = endLabel ∧ b.length < 4294967296 ∧
          labels.get? name = some (UInt32.ofNat b.length)) ∧
      ∀ name, name ∉ declarations ls → labels.get? name = none := by
  obtain ⟨is, rfl, rfl⟩ := disassemble_eq_ok_iff.1 h
  have hread := reads_listing is
  have hvalid := (valid_listing is).concat_blank
  have hrefs : references (listing is ++ [.blank]) ⊆ declarations (listing is ++ [.blank]) := by
    rw [references_concat_blank, declarations_concat_blank]
    exact fun _ => mem_references_listing_iff.1
  obtain ⟨first, labels, hp, ht⟩ := pass_first_of_valid hread hvalid
  have hlater := pass_later_of_declared hread hvalid ht hrefs true
  rw [image_concat_blank, image_listing] at hlater
  refine ⟨assemble_listing is, _, first, labels, hread, hp, hlater, ?_, ?_, ?_, ?_⟩
  · rw [declarations_concat_blank]
    exact nodup_declarations_listing is
  · intro name
    rw [declarations_concat_blank, references_concat_blank]
    exact mem_references_listing_iff.symm
  · intro name hn
    obtain ⟨o, hd⟩ := mem_declarations_iff_declaredAt.1 hn
    have hlt := hvalid.lt hd
    have hget := ht.get? hd
    obtain ⟨_, ⟨_, rfl⟩ | ⟨rfl, rfl⟩⟩ := declaredAt_listing.1 (declaredAt_concat_blank.1 hd)
    · exact .inl ⟨o, rfl, hlt, hget⟩
    · exact .inr ⟨rfl, hlt, hget⟩
  · exact fun name => ht.get?_eq_none

/-- A jump to the next instruction and one to the end. -/
theorem disassembly_reassembles_jumps :
    disassemble [30, 5, 0, 0, 0, 30, 10, 0, 0, 0] = .ok "jmp @l5\n@l5\njmp @end\n@end\n" ∧
      assemble "jmp @l5\n@l5\njmp @end\n@end\n" = .ok [30, 5, 0, 0, 0, 30, 10, 0, 0, 0] := by
  have h : disassemble [30, 5, 0, 0, 0, 30, 10, 0, 0, 0] = .ok "jmp @l5\n@l5\njmp @end\n@end\n" :=
    disassemble_encodeAll [⟨.jmp, .label 5⟩, ⟨.jmp, .label 10⟩]
  exact ⟨h, (disassembly_reassembles h).1⟩

/-! ### The programs that can be listed -/

/-- A text assembles to the encodings of its instructions, with offsets in place of labels. -/
theorem exists_resolved_of_assemble {p : String} {b : List UInt8} (h : assemble p = .ok b) :
    ∃ ls, Reads (lines p) ls ∧ encodeAll (resolved ls) = b := by
  obtain ⟨ls, hr, _, _, hb⟩ := assemble_eq_ok_iff.1 h
  exact ⟨ls, hr, hb⟩

/-- A text assembles to bytes if and only if these are instructions one after another. -/
theorem exists_assemble_iff {b : List UInt8} :
    (∃ p, assemble p = .ok b) ↔ ∃ is, encodeAll is = b := by
  constructor
  · rintro ⟨p, hp⟩
    obtain ⟨ls, _, hb⟩ := exists_resolved_of_assemble hp
    exact ⟨_, hb⟩
  · rintro ⟨is, rfl⟩
    exact ⟨_, assemble_listing is⟩

/-- Where disassembling fails, the bytes before are the longest beginning that is a program. -/
theorem disassemble_error_cases {b : List UInt8} {e : ListingError} (h : disassemble b = .error e) :
    ∃ n, (∃ is, encodeAll is = b.take n) ∧
      (∀ m, m ≤ b.length → (∃ is, encodeAll is = b.take m) → m ≤ n) ∧
      ∃ c, b[n]? = some c ∧
        (e = .invalidOpcode n ∧ Opcode.ofCode? c = none ∨
          e = .unexpectedEnd n ∧ ∃ o, Opcode.ofCode? c = some o ∧ b.length < n + o.size) := by
  obtain ⟨is, rfl, ht⟩ | ⟨is, rest, e', rfl, hne, he, ht⟩ := disassemble_cases b
  · rw [h] at ht
    cases ht
  · rw [h] at ht
    cases ht
    cases rest with
    | nil => exact absurd rfl hne
    | cons c rest =>
      refine ⟨(encodeAll is).length, ⟨is, List.take_left.symm⟩, ?_, c, by simp, ?_⟩
      · -- other instructions at the beginning are some of those that were read
        rintro m hm ⟨js, hjs⟩
        have happ : encodeAll js ++ (encodeAll is ++ c :: rest).drop m =
            encodeAll is ++ c :: rest := by
          rw [hjs, List.take_append_drop]
        obtain ⟨ks, rfl⟩ := Instruction.prefix_of_encodeAll_append happ he
        have hlen := congrArg List.length hjs
        rw [List.length_take, Nat.min_eq_left hm] at hlen
        rw [← hlen, Instruction.encodeAll_append, List.length_append]
        exact Nat.le_add_right _ _
      · cases e' with
        | invalidOpcode c' =>
          obtain ⟨⟨⟩, ho⟩ := Instruction.decode_eq_invalidOpcode_iff.1 he
          exact .inl ⟨rfl, ho⟩
        | truncated =>
          obtain h | ⟨c', o, ⟨⟩, ho, hlt⟩ := Instruction.decode_eq_truncated_iff.1 he
          · cases h
          · refine .inr ⟨rfl, o, ho, ?_⟩
            rw [List.length_append]
            omega

/-- The programs that can be listed are those that texts assemble to. They are instructions one after
another, of one list only, which the listing and the text both have. Disassembling other bytes stops at
the end of the longest program that they begin with. -/
theorem assembled_iff_disassembled (b : List UInt8) :
    ((∃ t, disassemble b = .ok t) ↔ ∃ p, assemble p = .ok b) ∧
    ((∃ p, assemble p = .ok b) ↔ ∃ is, encodeAll is = b) ∧
    (∀ is js, encodeAll is = b → encodeAll js = b → is = js) ∧
    (∀ t p, disassemble b = .ok t → assemble p = .ok b →
      ∃ ls ks, Reads (lines t) ls ∧ Reads (lines p) ks ∧ resolved ls = resolved ks) ∧
    ∀ e, disassemble b = .error e → ∃ n, (∃ is, encodeAll is = b.take n) ∧
      (∀ m, m ≤ b.length → (∃ is, encodeAll is = b.take m) → m ≤ n) ∧
      ∃ c, b[n]? = some c ∧
        (e = .invalidOpcode n ∧ Opcode.ofCode? c = none ∨
          e = .unexpectedEnd n ∧ ∃ o, Opcode.ofCode? c = some o ∧ b.length < n + o.size) := by
  have hlisted : (∃ t, disassemble b = .ok t) ↔ ∃ is, encodeAll is = b := by
    simp only [disassemble_eq_ok_iff]
    exact ⟨fun ⟨_, is, h, _⟩ => ⟨is, h⟩, fun ⟨is, h⟩ => ⟨_, is, h, rfl⟩⟩
  refine ⟨hlisted.trans exists_assemble_iff.symm, exists_assemble_iff, ?_, ?_,
    fun e => disassemble_error_cases⟩
  · rintro is js rfl hjs
    exact (Instruction.encodeAll_inj.1 hjs).symm
  · intro t p ht hp
    obtain ⟨is, rfl, rfl⟩ := disassemble_eq_ok_iff.1 ht
    obtain ⟨ks, hks, hb⟩ := exists_resolved_of_assemble hp
    refine ⟨_, ks, reads_listing is, hks, ?_⟩
    rw [resolved_concat_blank, resolved_listing]
    exact (Instruction.encodeAll_inj.1 hb).symm

/-- A text and a listing of the same program, and bytes that end within a jump. -/
theorem assembled_iff_disassembled_jump :
    (∃ ls ks, Reads (lines "jmp @end\n@end\n") ls ∧ Reads (lines "jmp 5 ; past the end") ks ∧
      resolved ls = resolved ks) ∧
    ∃ n, disassemble [0, 30, 5] = .error (.unexpectedEnd n) ∧
      ∀ m, m ≤ 3 → (∃ is, encodeAll is = [0, 30, 5].take m) → m ≤ n := by
  constructor
  · have hlist : disassemble [30, 5, 0, 0, 0] = .ok "jmp @end\n@end\n" :=
      disassemble_encodeAll [⟨.jmp, .label 5⟩]
    have htext : assemble "jmp 5 ; past the end" = .ok [30, 5, 0, 0, 0] := by rfl
    exact (assembled_iff_disassembled _).2.2.2.1 _ _ hlist htext
  · have h : disassemble [0, 30, 5] = .error (.unexpectedEnd 1) := by cbv
    obtain ⟨n, _, hmax, _, _, ⟨⟨⟩, _⟩ | ⟨⟨⟩, _⟩⟩ := (assembled_iff_disassembled _).2.2.2.2 _ h
    exact ⟨1, h, hmax⟩

end WordMachine.Assembly
