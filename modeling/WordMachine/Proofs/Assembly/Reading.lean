import WordMachine.Assembly.Reader

/-!
# Reading lines that were written

A line whose names have no blanks, line ends or semicolons in them is read back as it was, unless it
has a number that is too large to be read.
-/

namespace WordMachine.Assembly

/-! ### Words -/

/-- A character that neither ends a word nor begins a comment. -/
def Clean (c : Char) : Prop := c ∉ [' ', '\t', '\r', '\n', ';']

instance (c : Char) : Decidable (Clean c) :=
  inferInstanceAs (Decidable (c ∉ [' ', '\t', '\r', '\n', ';']))

def CleanWord (w : String) : Prop := w.toList ≠ [] ∧ ∀ c ∈ w.toList, Clean c

instance (w : String) : Decidable (CleanWord w) :=
  decidable_of_iff (w.toList ≠ [] ∧ w.toList.all (fun c => decide (Clean c)) = true) (by
    simp only [CleanWord, List.all_eq_true, decide_eq_true_eq])

theorem clean_of_isAlphanum {c : Char} (h : c.isAlphanum = true) : Clean c := by
  intro hm
  simp only [List.mem_cons, List.not_mem_nil, or_false] at hm
  obtain rfl | rfl | rfl | rfl | rfl := hm <;> exact absurd h (by decide)

theorem clean_repr {n : Nat} {c : Char} (h : c ∈ n.repr.toList) : Clean c :=
  clean_of_isAlphanum (by simp [Char.isAlphanum, Numeral.isDigit_of_mem_repr h])

theorem cleanWord_append {a b : String} (ha : CleanWord a) (hb : ∀ c ∈ b.toList, Clean c) :
    CleanWord (a ++ b) := by
  refine ⟨by simp [ha.1], fun c hc => ?_⟩
  rw [String.toList_append, List.mem_append] at hc
  exact hc.elim (ha.2 c) (hb c)

theorem Clean.not_separator {c : Char} (h : Clean c) : isSeparator c = false := by
  simp only [Clean, List.mem_cons, List.not_mem_nil, or_false, not_or] at h
  simp [isSeparator, h]

theorem Clean.not_semicolon {c : Char} (h : Clean c) : (c != ';') = true := by
  simp only [Clean, List.mem_cons, List.not_mem_nil, or_false, not_or] at h
  simp [h]

def spaced : List String → List Char
  | [] => []
  | w :: ws => w.toList ++ ws.flatMap fun w => ' ' :: w.toList

theorem splitOnP_spaced {w : String} {ws : List String} (h : ∀ x ∈ w :: ws, CleanWord x) :
    (spaced (w :: ws)).splitOnP isSeparator = (w :: ws).map String.toList := by
  have hw : ∀ c ∈ w.toList, isSeparator c = false :=
    fun c hc => ((h w (List.mem_cons_self ..)).2 c hc).not_separator
  induction ws generalizing w with
  | nil =>
    rw [spaced, List.flatMap_nil, List.append_nil, List.splitOnP_eq_singleton hw]
    rfl
  | cons x xs ih =>
    have hx := (List.forall_mem_cons.1 h).2
    have hrest := ih hx fun c hc => ((hx x (List.mem_cons_self ..)).2 c hc).not_separator
    have hs : spaced (w :: x :: xs) = w.toList ++ ' ' :: spaced (x :: xs) := by
      simp [spaced]
    rw [hs, List.splitOnP_append_cons_of_forall_mem hw ' ' rfl, hrest]
    rfl

theorem not_semicolon_of_mem_spaced {ws : List String} (h : ∀ x ∈ ws, CleanWord x) :
    ∀ c ∈ spaced ws, (c != ';') = true := by
  intro c hc
  cases ws with
  | nil => cases hc
  | cons w ws =>
    simp only [spaced, List.mem_append, List.mem_flatMap, List.mem_cons] at hc
    obtain hw | ⟨x, hx, rfl | hc⟩ := hc
    · exact ((h w (List.mem_cons_self ..)).2 c hw).not_semicolon
    · rfl
    · exact ((h x (List.mem_cons_of_mem _ hx)).2 c hc).not_semicolon

theorem words_spaced {ws : List String} (h : ∀ x ∈ ws, CleanWord x) : words (spaced ws) = ws := by
  cases ws with
  | nil => rfl
  | cons w ws =>
    have ht : (spaced (w :: ws)).takeWhile (· != ';') = spaced (w :: ws) := by
      rw [← List.append_nil (spaced (w :: ws)),
        List.takeWhile_append_of_pos (not_semicolon_of_mem_spaced h), List.takeWhile_nil]
    have hf : ((w :: ws).map String.toList).filter (· ≠ []) = (w :: ws).map String.toList := by
      apply List.filter_eq_self.2
      intro cs hcs
      obtain ⟨x, hx, rfl⟩ := List.mem_map.1 hcs
      simpa using (h x hx).1
    rw [words, ht, splitOnP_spaced h, hf, List.map_map]
    simp

/-! ### Words that begin labels -/

theorem isLabel_append {a : String} (h : isLabel a = true) (b : String) : isLabel (a ++ b) = true := by
  simp only [isLabel, beq_iff_eq, List.head?_eq_some_iff] at h ⊢
  obtain ⟨cs, hcs⟩ := h
  exact ⟨cs ++ b.toList, by simp [hcs]⟩

/-- A word at the start of labels. -/
def Stem (a : String) : Prop := isLabel a = true ∧ CleanWord a

instance (a : String) : Decidable (Stem a) :=
  inferInstanceAs (Decidable (isLabel a = true ∧ CleanWord a))

theorem Stem.append {a b : String} (ha : Stem a) (hb : ∀ c ∈ b.toList, Clean c) : Stem (a ++ b) :=
  ⟨isLabel_append ha.1 b, cleanWord_append ha.2 hb⟩

/-! ### Names of registers -/

theorem cleanWord_name (r : Register) : CleanWord r.name := by
  have hl : CleanWord ("R" ++ r.index.toNat.repr) := by
    refine ⟨by simp, fun c hc => ?_⟩
    rw [String.toList_append, List.mem_append] at hc
    refine clean_of_isAlphanum ?_
    cases hc with
    | inl hc =>
      cases List.mem_singleton.1 hc
      decide
    | inr hc => simp [Char.isAlphanum, Numeral.isDigit_of_mem_repr hc]
  have hs : CleanWord "RS" := by decide
  have hi : CleanWord "RI" := by decide
  unfold Register.name Register.alias?
  split
  · exact hs
  · split
    · exact hi
    · exact hl

/-! ### Lines -/

def Value.Clean : Value → Prop
  | number n => 0 ≤ n
  | label name => isLabel name ∧ CleanWord name

def Line.Clean : Line → Prop
  | blank => True
  | label name => isLabel name ∧ CleanWord name
  | instruction i => ∀ v, i.operands.value? = some v → v.Clean

def operandWords {s : Shape} : Operands Value s → List String
  | .none => []
  | .reg a => [a.name]
  | .regReg a b => [a.name, b.name]
  | .regVal a v => [a.name, v.text]
  | .label t => [t.text]

theorem toList_operands {s : Shape} (x : Operands Value s) :
    (x.text Value.text).toList = (operandWords x).flatMap fun w => ' ' :: w.toList := by
  cases x <;> simp [Operands.text, operandWords]

theorem toList_text (i : Instruction Value) :
    (i.text Value.text).toList = spaced (i.opcode.mnemonic :: operandWords i.operands) := by
  show (i.opcode.mnemonic ++ i.operands.text Value.text).toList = _
  rw [String.toList_append, spaced, toList_operands]

theorem cleanWord_mnemonic (o : Opcode) : CleanWord o.mnemonic ∧ isLabel o.mnemonic = false := by
  cases o <;> decide

theorem Value.Clean.text {v : Value} (h : v.Clean) : CleanWord v.text := by
  cases v with
  | number n =>
    obtain ⟨k, rfl⟩ := Int.eq_ofNat_of_zero_le h
    have ht : (Value.number (k : Int)).text = k.repr := rfl
    rw [ht]
    refine ⟨by simp, fun c hc => clean_of_isAlphanum ?_⟩
    simp [Char.isAlphanum, Numeral.isDigit_of_mem_repr hc]
  | label name => exact h.2

theorem cleanWord_operands {s : Shape} {x : Operands Value s}
    (h : ∀ v, x.value? = some v → v.Clean) : ∀ w ∈ operandWords x, CleanWord w := by
  cases x <;> simp only [operandWords, List.forall_mem_cons, List.not_mem_nil, false_implies,
    implies_true, and_true]
  case reg a => exact cleanWord_name a
  case regReg a b => exact ⟨cleanWord_name a, cleanWord_name b⟩
  case regVal a v => exact ⟨cleanWord_name a, (h v rfl).text⟩
  case label t => exact (h t rfl).text

theorem readRegister_name (r : Register) : readRegister r.name = .ok r := by
  rw [readRegister, Register.ofName?_name]

/-- A number is small enough to be read. -/
def Value.Fits : Value → Prop
  | number n => n < 9223372036854775808
  | label _ => True

def Line.Fits : Line → Prop
  | instruction i => ∀ v, i.operands.value? = some v → v.Fits
  | _ => True

/-- A number that is too large cannot be read, and any other value is read back. -/
theorem readValue_text {v w : Value} (hv : v.Clean) : readValue v.text = .ok w ↔ w = v ∧ v.Fits := by
  cases v with
  | label name =>
    rw [readValue, Value.text, if_pos hv.1]
    simp [Value.Fits, eq_comm]
  | number n =>
    obtain ⟨k, rfl⟩ := Int.eq_ofNat_of_zero_le hv
    have hnot : isLabel k.repr = false := by
      rw [isLabel, beq_eq_false_iff_ne]
      intro hh
      have hd := Numeral.isDigit_of_mem_repr (List.mem_of_head? hh)
      exact absurd hd (by decide)
    have hread : Numeral.integer? k.repr.toList = some (k : Int) := Numeral.integer?_repr k
    have ht : (Value.number (k : Int)).text = k.repr := rfl
    rw [ht, readValue, hnot, hread, Value.Fits]
    by_cases hk : (k : Int) < 9223372036854775808
    · have hk' : -9223372036854775808 ≤ (k : Int) ∧ (k : Int) < 9223372036854775808 := by omega
      simp [hk', eq_comm]
    · simp [hk]

theorem readOperands_words {o : Opcode} {s : Shape} {x y : Operands Value s}
    (hx : ∀ v, x.value? = some v → v.Clean) :
    readOperands o s (operandWords x) = .ok y ↔ y = x ∧ ∀ v, x.value? = some v → v.Fits := by
  have hval : ∀ {v : Value} {f : Value → Operands Value s}, v.Clean →
      ((readValue v.text).map f = .ok y ↔ y = f v ∧ v.Fits) := by
    intro v f hv
    have hread := fun w => readValue_text (w := w) hv
    cases hr : readValue v.text with
    | error e =>
      have hnot : ¬ v.Fits := by
        intro hf
        have hok := (hread v).2 ⟨rfl, hf⟩
        rw [hr] at hok
        cases hok
      simp [Except.map, hnot]
    | ok w =>
      obtain ⟨rfl, hf⟩ := (hread w).1 hr
      simp [Except.map, hf, eq_comm]
  cases x with
  | none =>
    simp [operandWords, readOperands, Operands.value?, eq_comm]
  | reg a =>
    have hr : readOperands o .reg [a.name] = .ok (.reg a) := by
      rw [readOperands, readRegister_name]
      rfl
    simp [operandWords, hr, Operands.value?, eq_comm]
  | regReg a b =>
    have hr : readOperands o .regReg [a.name, b.name] = .ok (.regReg a b) := by
      rw [readOperands, readRegister_name, readRegister_name]
      rfl
    simp [operandWords, hr, Operands.value?, eq_comm]
  | regVal a v =>
    have hr : readOperands o .regVal [a.name, v.text] = (readValue v.text).map (.regVal a) := by
      rw [readOperands, readRegister_name]
      cases readValue v.text <;> rfl
    rw [operandWords, hr, hval (hx v rfl)]
    simp [Operands.value?]
  | label t =>
    have hr : readOperands o .label [t.text] = (readValue t.text).map .label := by
      rw [readOperands]
      cases readValue t.text <;> rfl
    rw [operandWords, hr, hval (hx t rfl)]
    simp [Operands.value?]

theorem read_text {line line' : Line} (hl : line.Clean) :
    Line.read line.text.toList = .ok line' ↔ line' = line ∧ line.Fits := by
  cases line with
  | blank => simp [Line.text, Line.read, words, Line.ofWords, Line.Fits, eq_comm]
  | label name =>
    have hw : words name.toList = [name] := by
      have hn : ∀ w ∈ [name], CleanWord w := by simpa using hl.2
      simpa [spaced] using words_spaced hn
    simp [Line.read, Line.text, hw, Line.ofWords, hl.1, Line.Fits, eq_comm]
  | instruction i =>
    obtain ⟨hm, hn⟩ := cleanWord_mnemonic i.opcode
    have hw : words (i.text Value.text).toList = i.opcode.mnemonic :: operandWords i.operands := by
      rw [toList_text]
      exact words_spaced (List.forall_mem_cons.2 ⟨hm, cleanWord_operands hl⟩)
    have hread := fun y => readOperands_words (o := i.opcode) (y := y) hl
    simp only [Line.read, Line.text, hw, Line.ofWords, hn, readInstruction,
      Opcode.ofMnemonic?_mnemonic, Bool.false_eq_true, if_false]
    cases hr : readOperands i.opcode i.opcode.shape (operandWords i.operands) with
    | error e =>
      have hnot : ¬ Line.Fits (.instruction i) := by
        intro hf
        have hok := (hread i.operands).2 ⟨rfl, hf⟩
        rw [hr] at hok
        cases hok
      simp [Except.map, hnot]
    | ok y =>
      obtain ⟨rfl, hf⟩ := (hread y).1 hr
      have hf' : Line.Fits (.instruction i) := hf
      simp [Except.map, hf', eq_comm]

end WordMachine.Assembly
