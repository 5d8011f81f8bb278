import Mathlib.Data.List.Basic
import WordMachine.Assembly.Program
import WordMachine.Proofs.Assembly.Reading

/-!
# Lines by their words

What a pass does at a line depends on its words alone. It is told here word for word: what each operand
is read as, and what the words of a line with or without a label come to.
-/

namespace WordMachine.Assembly

section

variable {last : Bool} {labels t : Labels} {offset : Nat} {o : Opcode} {s : Shape} {a b w : String}
  {ws : List String} {v : Word}

/-! ### Operands -/

def valueOf (last : Bool) (labels : Labels) (w : String) : Except LineError Word :=
  readValue w >>= Value.resolve last labels

theorem valueOf_label (h : isLabel w = true) :
    valueOf last labels w = Value.resolve last labels (.label w) := by
  rw [valueOf, readValue, if_pos h]
  rfl

theorem valueOf_declared (h : isLabel w = true) (hw : labels.get? w = some v) :
    valueOf last labels w = .ok v := by
  rw [valueOf_label h, Value.resolve, hw]

theorem valueOf_undeclared (h : isLabel w = true) (hw : labels.get? w = none) :
    valueOf last labels w = if last then .error (.undeclaredLabel w) else .ok 0 := by
  rw [valueOf_label h, Value.resolve, hw]

def operandsOf (last : Bool) (labels : Labels) (o : Opcode) (s : Shape) (ws : List String) :
    Except LineError (Operands Word s) :=
  readOperands o s ws >>= Operands.traverse (Value.resolve last labels)

theorem operandsOf_simple : operandsOf last labels o .simple [] = .ok .none := rfl

theorem operandsOf_reg : operandsOf last labels o .reg [a] = (readRegister a).map .reg := by
  rw [operandsOf, readOperands]
  cases readRegister a <;> rfl

theorem operandsOf_regReg : operandsOf last labels o .regReg [a, b] =
    readRegister a >>= fun r => (readRegister b).map (.regReg r) := by
  rw [operandsOf, readOperands]
  cases readRegister a <;> cases readRegister b <;> rfl

theorem operandsOf_regVal : operandsOf last labels o .regVal [a, b] =
    readRegister a >>= fun r => (valueOf last labels b).map (.regVal r) := by
  rw [operandsOf, readOperands, valueOf]
  cases readRegister a <;> cases readValue b <;> rfl

theorem operandsOf_label : operandsOf last labels o .label [a] = (valueOf last labels a).map .label := by
  rw [operandsOf, readOperands, valueOf]
  cases readValue a <;> rfl

theorem operandsOf_count (h : ws.length ≠ s.count) :
    operandsOf last labels o s ws = .error (.wrongOperandCount o ws.length) := by
  have hread : readOperands o s ws = .error (.wrongOperandCount o ws.length) := by
    unfold readOperands
    split
    · exact absurd rfl h
    · exact absurd rfl h
    · exact absurd rfl h
    · exact absurd rfl h
    · exact absurd rfl h
    · rfl
  rw [operandsOf, hread]
  rfl

theorem words_of_count (h : ws.length = s.count) : (s = .simple ∧ ws = []) ∨
    (∃ a, (s = .reg ∨ s = .label) ∧ ws = [a]) ∨ ∃ a b, (s = .regReg ∨ s = .regVal) ∧ ws = [a, b] := by
  cases s with
  | simple => exact .inl ⟨rfl, List.length_eq_zero_iff.1 h⟩
  | reg | label =>
    obtain ⟨a, ha⟩ := List.length_eq_one_iff.1 h
    exact .inr (.inl ⟨a, by simp, ha⟩)
  | regReg | regVal =>
    obtain ⟨a, b, hab⟩ := List.length_eq_two.1 h
    exact .inr (.inr ⟨a, b, by simp, hab⟩)

/-! ### Lines -/

/-- What a line with these words comes to on a pass: its bytes and the table after it. -/
def wordsAssemble (last : Bool) (labels : Labels) (offset : Nat) (ws : List String) :
    Except LineError (List UInt8 × Labels) :=
  Line.ofWords ws >>= Line.assemble last offset labels

theorem wordsAssemble_words (line : List Char) :
    (Line.read line >>= Line.assemble last offset labels) =
      wordsAssemble last labels offset (words line) := rfl

theorem wordsAssemble_nil : wordsAssemble last labels offset [] = .ok ([], labels) := rfl

theorem wordsAssemble_label (hw : isLabel w = true) :
    wordsAssemble last labels offset [w] = Line.assemble last offset labels (.label w) := by
  rw [wordsAssemble, Line.ofWords, if_pos hw, if_pos rfl]
  rfl

theorem wordsAssemble_beyond (hw : isLabel w = true) (ho : ¬offset < 4294967296) :
    wordsAssemble last labels offset [w] = .error .invalidLabelDeclaration := by
  rw [wordsAssemble_label hw, Line.assemble, if_neg ho]

theorem wordsAssemble_declared (hw : isLabel w = true) (ho : offset < 4294967296)
    (ht : labels.insert w (UInt32.ofNat offset) = .ok t) :
    wordsAssemble last labels offset [w] = .ok ([], t) := by
  rw [wordsAssemble_label hw, Line.assemble, if_pos ho, ht]

theorem wordsAssemble_redeclared (hw : isLabel w = true) (ho : offset < 4294967296)
    (hv : labels.insert w (UInt32.ofNat offset) = .error v) :
    wordsAssemble last labels offset [w] = .error (.labelRedeclared w) := by
  rw [wordsAssemble_label hw, Line.assemble, if_pos ho, hv]

theorem wordsAssemble_declaration (hw : isLabel w = true) (hws : ws ≠ []) :
    wordsAssemble last labels offset (w :: ws) = .error .invalidLabelDeclaration := by
  rw [wordsAssemble, Line.ofWords, if_pos hw, if_neg hws]
  rfl

theorem wordsAssemble_operation (hw : isLabel w = false) (h : ∀ o : Opcode, o.mnemonic ≠ w) :
    wordsAssemble last labels offset (w :: ws) = .error (.invalidOperation w) := by
  have hnone : Opcode.ofMnemonic? w = none := by
    cases ho : Opcode.ofMnemonic? w with
    | none => rfl
    | some o => exact absurd (Opcode.ofMnemonic?_eq_some_iff.1 ho).symm (h o)
  have hnot : ¬isLabel w = true := by simp [hw]
  rw [wordsAssemble, Line.ofWords, if_neg hnot, readInstruction, hnone]
  rfl

theorem wordsAssemble_instruction (o : Opcode) : wordsAssemble last labels offset (o.mnemonic :: ws) =
    (operandsOf last labels o o.shape ws).map fun x => (o.code :: x.encode, labels) := by
  have hnot : ¬isLabel o.mnemonic = true := by simp [(cleanWord_mnemonic o).2]
  have hread : readInstruction o.mnemonic ws =
      (readOperands o o.shape ws).map fun x => ⟨o, x⟩ := by
    rw [readInstruction, Opcode.ofMnemonic?_mnemonic]
  rw [wordsAssemble, Line.ofWords, if_neg hnot, hread, operandsOf]
  cases readOperands o o.shape ws with
  | error e => rfl
  | ok x =>
    have hassemble : Line.assemble last offset labels (.instruction ⟨o, x⟩) =
        (x.traverse (Value.resolve last labels)).map fun x => (o.code :: x.encode, labels) := by
      rw [Line.assemble, Instruction.traverse]
      cases x.traverse (Value.resolve last labels) <;> rfl
    exact hassemble

/-- A line has no words, declares a label, has other words behind a label, names no operation or is an
operation with operands. -/
theorem words_cases (ws : List String) : ws = [] ∨ (∃ w, isLabel w = true ∧ ws = [w]) ∨
    (∃ w rest, isLabel w = true ∧ rest ≠ [] ∧ ws = w :: rest) ∨
    (∃ w rest, isLabel w = false ∧ (∀ o : Opcode, o.mnemonic ≠ w) ∧ ws = w :: rest) ∨
    ∃ (o : Opcode) (rest : List String), ws = o.mnemonic :: rest := by
  cases ws with
  | nil => exact .inl rfl
  | cons w rest =>
    by_cases hw : isLabel w = true
    · by_cases hrest : rest = []
      · exact .inr (.inl ⟨w, hw, by rw [hrest]⟩)
      · exact .inr (.inr (.inl ⟨w, rest, hw, hrest, rfl⟩))
    · by_cases ho : ∃ o : Opcode, o.mnemonic = w
      · obtain ⟨o, rfl⟩ := ho
        exact .inr (.inr (.inr (.inr ⟨o, rest, rfl⟩)))
      · have hnone : ∀ o : Opcode, o.mnemonic ≠ w := fun o he => ho ⟨o, he⟩
        exact .inr (.inr (.inr (.inl ⟨w, rest, by simpa using hw, hnone, rfl⟩)))

end

end WordMachine.Assembly
