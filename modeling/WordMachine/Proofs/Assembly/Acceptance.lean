import Mathlib.Data.Nat.Digits.Defs
import WordMachine.Proofs.Assembly.ByWords
import WordMachine.Proofs.Assembly.Scanning
import WordMachine.Proofs.Word

/-!
# Which lines are accepted

The grammar of a line that is assembled on the last pass, by its words: how registers and numbers are
written, which words stand for values, and what a line with such words adds to the program and to the
table of labels. Any other line has a first mistake, and the error says which.
-/

namespace WordMachine.Assembly

/-! ### Registers, numbers and values -/

def decimal (digits : List Char) : Nat := Nat.ofDigits 10 (digits.reverse.map fun c => c.toNat - '0'.toNat)

/-- At least one character, and digits only. -/
def Digits (cs : List Char) : Prop := cs ≠ [] ∧ ∀ c ∈ cs, c.isDigit = true

inductive RegisterWord : String → Register → Prop
  | stack : RegisterWord "RS" .stack
  | instruction : RegisterWord "RI" .instruction
  | numbered {digits} : Digits digits → digits.length ≤ 3 → decimal digits ≤ 255 →
      RegisterWord (String.ofList ('R' :: digits)) ⟨UInt8.ofNat (decimal digits)⟩

/-- A number of 64 signed bits. -/
inductive NumberWord : String → Int → Prop
  | positive {digits} : Digits digits → decimal digits < 2 ^ 63 →
      NumberWord (String.ofList digits) (decimal digits)
  | negative {digits} : Digits digits → decimal digits ≤ 2 ^ 63 →
      NumberWord (String.ofList ('-' :: digits)) (-(decimal digits))

/-- A label has the value in the table, and a number its own modulo 2^32. -/
inductive ValueWord (labels : Labels) : String → Word → Prop
  | label {w v} : isLabel w = true → labels.get? w = some v → ValueWord labels w v
  | number {w n v} : NumberWord w n → (v.toNat : Int) = n % 2 ^ 32 → ValueWord labels w v

section

variable {cs digits : List Char} {w : String} {r : Register} {n : Nat} {z : Int}

theorem ofDigitChars_eq (cs : List Char) (init : Nat) :
    Nat.ofDigitChars 10 cs init = init * 10 ^ cs.length + decimal cs := by
  induction cs generalizing init with
  | nil => simp [Nat.ofDigitChars, decimal]
  | cons c cs ih =>
    have hstep : Nat.ofDigitChars 10 (c :: cs) init =
        Nat.ofDigitChars 10 cs (10 * init + (c.toNat - '0'.toNat)) := rfl
    have hdecimal : decimal (c :: cs) = decimal cs + 10 ^ cs.length * (c.toNat - '0'.toNat) := by
      simp [decimal, Nat.ofDigits_append]
    rw [hstep, ih, hdecimal, List.length_cons, Nat.pow_succ]
    ring

theorem natural?_eq_some_iff : Numeral.natural? cs = some n ↔ Digits cs ∧ n = decimal cs := by
  have hdecimal : Nat.ofDigitChars 10 cs 0 = decimal cs := by
    rw [ofDigitChars_eq, Nat.zero_mul, Nat.zero_add]
  have hdigits : (cs ≠ [] ∧ cs.all Char.isDigit = true) ↔ Digits cs := by
    rw [List.all_eq_true, Digits]
  rw [Numeral.natural?, hdecimal]
  split
  · next h => rw [Option.some.injEq, eq_comm, and_iff_right (hdigits.1 h)]
  · next h =>
    have hnot : ¬Digits cs := fun hd => h (hdigits.2 hd)
    simp [hnot]

theorem integer?_minus : Numeral.integer? ('-' :: cs) = some z ↔ Digits cs ∧ z = -decimal cs := by
  rw [Numeral.integer?]
  cases hn : Numeral.natural? cs with
  | none =>
    have hnot : ¬Digits cs := by
      intro hd
      rw [natural?_eq_some_iff.2 ⟨hd, rfl⟩] at hn
      cases hn
    simp [hnot]
  | some n =>
    obtain ⟨hd, rfl⟩ := natural?_eq_some_iff.1 hn
    simp [hd, eq_comm]

theorem integer?_of_ne_minus (h : cs.head? ≠ some '-') :
    Numeral.integer? cs = some z ↔ Digits cs ∧ z = decimal cs := by
  unfold Numeral.integer?
  split
  · exact absurd rfl h
  · cases hn : Numeral.natural? cs with
    | none =>
      have hnot : ¬Digits cs := by
        intro hd
        rw [natural?_eq_some_iff.2 ⟨hd, rfl⟩] at hn
        cases hn
      simp [hnot]
    | some n =>
      obtain ⟨hd, rfl⟩ := natural?_eq_some_iff.1 hn
      simp [hd, eq_comm]

theorem Digits.head?_ne_minus (h : Digits cs) : cs.head? ≠ some '-' := by
  intro he
  have hminus := h.2 '-' (List.mem_of_mem_head? he)
  cases hminus

theorem integer?_eq_some_iff : Numeral.integer? cs = some z ↔
    (Digits cs ∧ z = decimal cs) ∨ ∃ digits, cs = '-' :: digits ∧ Digits digits ∧ z = -decimal digits := by
  by_cases hminus : cs.head? = some '-'
  · obtain ⟨digits, rfl⟩ := List.head?_eq_some_iff.1 hminus
    have hnot : ¬Digits ('-' :: digits) := fun h => h.head?_ne_minus rfl
    simp [integer?_minus, hnot]
  · rw [integer?_of_ne_minus hminus]
    constructor
    · exact .inl
    · intro h
      obtain h | ⟨digits, rfl, _⟩ := h
      · exact h
      · exact absurd rfl hminus

theorem ofName?_eq_some_iff : Register.ofName? w = some r ↔ RegisterWord w r := by
  constructor
  · intro h
    have hw : w = String.ofList w.toList := String.ofList_toList.symm
    unfold Register.ofName? at h
    split at h
    · next hcs =>
      cases h
      rw [hw, hcs]
      exact .stack
    · next hcs =>
      cases h
      rw [hw, hcs]
      exact .instruction
    · next digits hcs =>
      split at h
      · next n hn =>
        obtain ⟨hdigits, rfl⟩ := natural?_eq_some_iff.1 hn
        split at h
        · next hbounds =>
          cases h
          rw [hw, hcs]
          exact .numbered hdigits hbounds.1 (by omega)
        · cases h
      · cases h
    · cases h
  · intro h
    cases h with
    | stack | instruction => rfl
    | numbered hdigits hlen hle =>
      exact Register.ofName?_numbered (natural?_eq_some_iff.2 ⟨hdigits, rfl⟩) hlen (by omega)

theorem numberWord_iff : NumberWord w z ↔ Numeral.integer? w.toList = some z ∧
    -9223372036854775808 ≤ z ∧ z < 9223372036854775808 := by
  rw [integer?_eq_some_iff]
  constructor
  · intro h
    cases h with
    | positive hdigits hlt =>
      rw [String.toList_ofList]
      exact ⟨.inl ⟨hdigits, rfl⟩, by omega, by omega⟩
    | negative hdigits hle =>
      rw [String.toList_ofList]
      exact ⟨.inr ⟨_, rfl, hdigits, rfl⟩, by omega, by omega⟩
  · intro h
    have hw : w = String.ofList w.toList := String.ofList_toList.symm
    obtain ⟨⟨hdigits, rfl⟩ | ⟨digits, hcs, hdigits, rfl⟩, hlower, hupper⟩ := h
    · have hword : NumberWord (String.ofList w.toList) (decimal w.toList) :=
        .positive hdigits (by omega)
      rwa [← hw] at hword
    · rw [hw, hcs]
      exact .negative hdigits (by omega)

theorem not_isLabel_of_numberWord (h : NumberWord w z) : isLabel w = false := by
  have hfirst : ∀ {c cs}, Digits (c :: cs) → c ≠ '@' := by
    rintro c cs h rfl
    have hat := h.2 '@' List.mem_cons_self
    cases hat
  cases h with
  | @positive digits hdigits _ =>
    cases digits with
    | nil => exact absurd rfl hdigits.1
    | cons c cs => simpa [isLabel] using hfirst hdigits
  | negative => simp [isLabel]

theorem eq_ofInt_iff {v : Word} : v = Word.ofInt z ↔ (v.toNat : Int) = z % 2 ^ 32 := by
  have hz := Word.toNat_ofInt z
  rw [← UInt32.toNat_inj]
  omega

end

/-! ### Results -/

section

variable {α β ε : Type} {x : Except ε α} {f : α → Except ε β} {g : α → β} {b : β} {e : ε}

theorem bind_eq_ok_iff : (x >>= f) = .ok b ↔ ∃ a, x = .ok a ∧ f a = .ok b := by
  cases x <;> simp [Bind.bind, Except.bind]

theorem bind_eq_error_iff : (x >>= f) = .error e ↔ x = .error e ∨ ∃ a, x = .ok a ∧ f a = .error e := by
  cases x <;> simp [Bind.bind, Except.bind]

theorem map_eq_ok_iff : x.map g = .ok b ↔ ∃ a, x = .ok a ∧ g a = b := by
  cases x <;> simp [Except.map]

theorem map_eq_error_iff : x.map g = .error e ↔ x = .error e := by
  cases x <;> simp [Except.map]

end

/-! ### Operands -/

inductive OperandKind
  | register | value

def kinds : Shape → List OperandKind
  | .simple => []
  | .reg => [.register]
  | .regReg => [.register, .register]
  | .regVal => [.register, .value]
  | .label => [.value]

def Good (labels : Labels) : OperandKind → String → Prop
  | .register, w => ∃ r, RegisterWord w r
  | .value, w => ∃ v, ValueWord labels w v

inductive Blames (labels : Labels) : OperandKind → String → LineError → Prop
  | register {w} : (∀ r, ¬RegisterWord w r) → Blames labels .register w (.invalidRegister w)
  | label {w} : isLabel w = true → labels.get? w = none → Blames labels .value w (.undeclaredLabel w)
  | number {w} : isLabel w = false → (∀ n, ¬NumberWord w n) → Blames labels .value w (.invalidNumber w)

/-- What is wrong with the first of some operands that something is wrong with. -/
def FirstBlamed (labels : Labels) (operands : List (OperandKind × String)) (e : LineError) : Prop :=
  ∃ before kind w after, operands = before ++ (kind, w) :: after ∧ Blames labels kind w e ∧
    ∀ p ∈ before, Good labels p.1 p.2

/-- Operands of a shape by their words. -/
inductive OperandWords (labels : Labels) : {s : Shape} → List String → Operands Word s → Prop
  | none : OperandWords labels [] .none
  | reg {a r} : RegisterWord a r → OperandWords labels [a] (.reg r)
  | regReg {a b r q} : RegisterWord a r → RegisterWord b q → OperandWords labels [a, b] (.regReg r q)
  | regVal {a b r v} : RegisterWord a r → ValueWord labels b v →
      OperandWords labels [a, b] (.regVal r v)
  | label {a v} : ValueWord labels a v → OperandWords labels [a] (.label v)

section

variable {labels : Labels} {w : String} {ws : List String} {r : Register} {v : Word} {e : LineError}
  {o : Opcode} {s : Shape} {x : Operands Word s} {kind : OperandKind}
  {operands : List (OperandKind × String)}

theorem readRegister_eq_ok_iff : readRegister w = .ok r ↔ RegisterWord w r := by
  rw [← ofName?_eq_some_iff, readRegister]
  cases Register.ofName? w <;> simp

theorem readRegister_eq_error_iff : readRegister w = .error e ↔ Blames labels .register w e := by
  have hword : ∀ r, RegisterWord w r ↔ Register.ofName? w = some r := fun r => ofName?_eq_some_iff.symm
  rw [readRegister]
  constructor
  · intro h
    cases hw : Register.ofName? w with
    | none =>
      rw [hw] at h
      cases h
      exact .register fun r hr => by simp [hword, hw] at hr
    | some r => simp [hw] at h
  · intro h
    cases h with
    | register hnone =>
      cases hw : Register.ofName? w with
      | none => rfl
      | some r => exact absurd ((hword r).2 hw) (hnone r)

theorem valueOf_number {n : Int} (h : NumberWord w n) : valueOf true labels w = .ok (Word.ofInt n) := by
  obtain ⟨hn, hrange⟩ := numberWord_iff.1 h
  have hnot : ¬isLabel w = true := by simp [not_isLabel_of_numberWord h]
  simp only [valueOf, readValue, if_neg hnot, hn, if_pos hrange]
  rfl

theorem valueOf_invalid (hl : isLabel w = false) (h : ∀ n, ¬NumberWord w n) :
    valueOf true labels w = .error (.invalidNumber w) := by
  have hnot : ¬isLabel w = true := by simp [hl]
  rw [valueOf, readValue, if_neg hnot]
  cases hn : Numeral.integer? w.toList with
  | none => rfl
  | some n =>
    have hrange : ¬(-9223372036854775808 ≤ n ∧ n < 9223372036854775808) := fun hr =>
      h n (numberWord_iff.2 ⟨hn, hr⟩)
    simp only [if_neg hrange]
    rfl

theorem valueOf_eq_ok_iff : valueOf true labels w = .ok v ↔ ValueWord labels w v := by
  constructor
  · intro h
    by_cases hl : isLabel w = true
    · cases hg : labels.get? w with
      | none =>
        rw [valueOf_undeclared hl hg] at h
        cases h
      | some u =>
        rw [valueOf_declared hl hg] at h
        cases h
        exact .label hl hg
    · by_cases hn : ∃ n, NumberWord w n
      · obtain ⟨n, hn⟩ := hn
        rw [valueOf_number hn] at h
        cases h
        exact .number hn (eq_ofInt_iff.1 rfl)
      · rw [valueOf_invalid (by simpa using hl) (by simpa using hn)] at h
        cases h
  · intro h
    cases h with
    | label hl hg => exact valueOf_declared hl hg
    | number hn hv => rw [valueOf_number hn, eq_ofInt_iff.2 hv]

theorem valueOf_eq_error_iff : valueOf true labels w = .error e ↔ Blames labels .value w e := by
  constructor
  · intro h
    by_cases hl : isLabel w = true
    · cases hg : labels.get? w with
      | none =>
        rw [valueOf_undeclared hl hg] at h
        cases h
        exact .label hl hg
      | some u =>
        rw [valueOf_declared hl hg] at h
        cases h
    · by_cases hn : ∃ n, NumberWord w n
      · obtain ⟨n, hn⟩ := hn
        rw [valueOf_number hn] at h
        cases h
      · have hl : isLabel w = false := by simpa using hl
        have hn : ∀ n, ¬NumberWord w n := by simpa using hn
        rw [valueOf_invalid hl hn] at h
        cases h
        exact .number hl hn
  · intro h
    cases h with
    | label hl hg => exact valueOf_undeclared hl hg
    | number hl hn => exact valueOf_invalid hl hn

theorem firstBlamed_nil : ¬FirstBlamed labels [] e := by
  intro h
  obtain ⟨before, kind, w, after, he, _⟩ := h
  cases before <;> cases he

theorem firstBlamed_cons : FirstBlamed labels ((kind, w) :: operands) e ↔
    Blames labels kind w e ∨ Good labels kind w ∧ FirstBlamed labels operands e := by
  constructor
  · intro h
    obtain ⟨before, k, u, after, he, hblames, hgood⟩ := h
    cases before with
    | nil =>
      cases he
      exact .inl hblames
    | cons p before =>
      cases he
      obtain ⟨hp, hbefore⟩ := List.forall_mem_cons.1 hgood
      exact .inr ⟨hp, before, k, u, after, rfl, hblames, hbefore⟩
  · intro h
    cases h with
    | inl hblames => exact ⟨[], kind, w, operands, rfl, hblames, fun p hp => by cases hp⟩
    | inr h =>
      obtain ⟨hgood, before, k, u, after, rfl, hblames, hbefore⟩ := h
      exact ⟨(kind, w) :: before, k, u, after, rfl, hblames, List.forall_mem_cons.2 ⟨hgood, hbefore⟩⟩

theorem operandWords_of_ok (h : operandsOf true labels o s ws = .ok x) : OperandWords labels ws x := by
  by_cases hlen : ws.length = s.count
  · obtain ⟨rfl, rfl⟩ | ⟨a, rfl | rfl, rfl⟩ | ⟨a, b, rfl | rfl, rfl⟩ := words_of_count hlen
    · cases h
      exact .none
    · rw [operandsOf_reg, map_eq_ok_iff] at h
      obtain ⟨r, hr, rfl⟩ := h
      exact .reg (readRegister_eq_ok_iff.1 hr)
    · rw [operandsOf_label, map_eq_ok_iff] at h
      obtain ⟨v, hv, rfl⟩ := h
      exact .label (valueOf_eq_ok_iff.1 hv)
    · rw [operandsOf_regReg, bind_eq_ok_iff] at h
      obtain ⟨r, hr, h⟩ := h
      obtain ⟨q, hq, rfl⟩ := map_eq_ok_iff.1 h
      exact .regReg (readRegister_eq_ok_iff.1 hr) (readRegister_eq_ok_iff.1 hq)
    · rw [operandsOf_regVal, bind_eq_ok_iff] at h
      obtain ⟨r, hr, h⟩ := h
      obtain ⟨v, hv, rfl⟩ := map_eq_ok_iff.1 h
      exact .regVal (readRegister_eq_ok_iff.1 hr) (valueOf_eq_ok_iff.1 hv)
  · rw [operandsOf_count hlen] at h
    cases h

theorem operandsOf_eq_ok_iff : operandsOf true labels o s ws = .ok x ↔ OperandWords labels ws x := by
  constructor
  · exact operandWords_of_ok
  · intro h
    cases h with
    | none => rfl
    | reg ha => rw [operandsOf_reg, readRegister_eq_ok_iff.2 ha, Except.map]
    | label ha => rw [operandsOf_label, valueOf_eq_ok_iff.2 ha, Except.map]
    | regReg ha hb =>
      rw [operandsOf_regReg, readRegister_eq_ok_iff.2 ha, readRegister_eq_ok_iff.2 hb]
      rfl
    | regVal ha hb =>
      rw [operandsOf_regVal, readRegister_eq_ok_iff.2 ha, valueOf_eq_ok_iff.2 hb]
      rfl

/-- The first operand with a mistake decides the error. -/
theorem operandsOf_eq_error_iff (h : ws.length = s.count) :
    operandsOf true labels o s ws = .error e ↔ FirstBlamed labels ((kinds s).zip ws) e := by
  have hregister : ∀ {a}, readRegister a = .error e ↔ Blames labels .register a e :=
    readRegister_eq_error_iff
  obtain ⟨rfl, rfl⟩ | ⟨a, rfl | rfl, rfl⟩ | ⟨a, b, rfl | rfl, rfl⟩ := words_of_count h
  · simp [operandsOf_simple, kinds, firstBlamed_nil]
  · rw [operandsOf_reg, map_eq_error_iff, hregister]
    simp [kinds, firstBlamed_cons, firstBlamed_nil]
  · rw [operandsOf_label, map_eq_error_iff, valueOf_eq_error_iff]
    simp [kinds, firstBlamed_cons, firstBlamed_nil]
  · simp [operandsOf_regReg, bind_eq_error_iff, map_eq_error_iff, readRegister_eq_ok_iff, hregister,
      kinds, firstBlamed_cons, firstBlamed_nil, Good]
  · simp [operandsOf_regVal, bind_eq_error_iff, map_eq_error_iff, readRegister_eq_ok_iff, hregister,
      valueOf_eq_error_iff, kinds, firstBlamed_cons, firstBlamed_nil, Good]

end

/-! ### Lines -/

/-- A line is accepted at an offset with a table: its words, its bytes and the labels after it. -/
inductive Accepts (labels : Labels) (offset : Nat) :
    List String → List UInt8 → (String → Option Word) → Prop
  | blank : Accepts labels offset [] [] labels.get?
  | label {w v} : isLabel w = true → v.toNat = offset → (∀ u, labels.get? w = some u → u = v) →
      Accepts labels offset [w] [] fun name => if name = w then some v else labels.get? name
  | instruction {o : Opcode} {ws} {x : Operands Word o.shape} : OperandWords labels ws x →
      Accepts labels offset (o.mnemonic :: ws) (o.code :: x.encode) labels.get?

/-- What is wrong with the words of a line at an offset with a table. -/
inductive Refuses (labels : Labels) (offset : Nat) : List String → LineError → Prop
  | declaration {w ws} : isLabel w = true → ws ≠ [] →
      Refuses labels offset (w :: ws) .invalidLabelDeclaration
  | redeclared {w v} : isLabel w = true → labels.get? w = some v → v.toNat ≠ offset →
      Refuses labels offset [w] (.labelRedeclared w)
  | operation {w ws} : isLabel w = false → (∀ o : Opcode, o.mnemonic ≠ w) →
      Refuses labels offset (w :: ws) (.invalidOperation w)
  | count {o : Opcode} {ws} : ws.length ≠ o.shape.count →
      Refuses labels offset (o.mnemonic :: ws) (.wrongOperandCount o ws.length)
  | operand {o : Opcode} {ws e} : ws.length = o.shape.count →
      FirstBlamed labels ((kinds o.shape).zip ws) e → Refuses labels offset (o.mnemonic :: ws) e

section

variable {labels : Labels} {offset : Nat} {w : String} {ws : List String} {bytes : List UInt8}
  {f : String → Option Word} {e : LineError}

theorem toNat_eq_iff {v : Word} (ho : offset < 4294967296) :
    v.toNat = offset ↔ v = UInt32.ofNat offset := by
  rw [← UInt32.toNat_inj, Word.toNat_ofNat_of_lt ho]

theorem refuses_of_error (ho : offset < 4294967296) (h : wordsAssemble true labels offset ws = .error e) :
    Refuses labels offset ws e := by
  obtain rfl | ⟨w, hw, rfl⟩ | ⟨w, rest, hw, hrest, rfl⟩ | ⟨w, rest, hw, hnone, rfl⟩ | ⟨o, rest, rfl⟩ :=
    words_cases ws
  · cases h
  · cases hi : labels.insert w (UInt32.ofNat offset) with
    | ok t =>
      rw [wordsAssemble_declared hw ho hi] at h
      cases h
    | error v =>
      rw [wordsAssemble_redeclared hw ho hi] at h
      cases h
      obtain ⟨hg, hne⟩ := Labels.insert_eq_error_iff.1 hi
      exact .redeclared hw hg fun hv => hne ((toNat_eq_iff ho).1 hv)
  · rw [wordsAssemble_declaration hw hrest] at h
    cases h
    exact .declaration hw hrest
  · rw [wordsAssemble_operation hw hnone] at h
    cases h
    exact .operation hw hnone
  · rw [wordsAssemble_instruction, map_eq_error_iff] at h
    by_cases hlen : rest.length = o.shape.count
    · exact .operand hlen ((operandsOf_eq_error_iff hlen).1 h)
    · rw [operandsOf_count hlen] at h
      cases h
      exact .count hlen

theorem error_of_refuses (ho : offset < 4294967296) (h : Refuses labels offset ws e) :
    wordsAssemble true labels offset ws = .error e := by
  cases h with
  | declaration hw hws => exact wordsAssemble_declaration hw hws
  | @redeclared w v hw hg hne =>
    have hi := Labels.insert_eq_error_iff.2 ⟨hg, fun hv => hne ((toNat_eq_iff ho).2 hv)⟩
    exact wordsAssemble_redeclared hw ho hi
  | operation hw hnone => exact wordsAssemble_operation hw hnone
  | count hlen => rw [wordsAssemble_instruction, operandsOf_count hlen, Except.map]
  | operand hlen hfirst =>
    rw [wordsAssemble_instruction, (operandsOf_eq_error_iff hlen).2 hfirst, Except.map]

theorem accepts_of_ok {t : Labels} (ho : offset < 4294967296)
    (h : wordsAssemble true labels offset ws = .ok (bytes, t)) : Accepts labels offset ws bytes t.get? := by
  obtain rfl | ⟨w, hw, rfl⟩ | ⟨w, rest, hw, hrest, rfl⟩ | ⟨w, rest, hw, hnone, rfl⟩ | ⟨o, rest, rfl⟩ :=
    words_cases ws
  · cases h
    exact .blank
  · cases hi : labels.insert w (UInt32.ofNat offset) with
    | error v =>
      rw [wordsAssemble_redeclared hw ho hi] at h
      cases h
    | ok u =>
      rw [wordsAssemble_declared hw ho hi] at h
      cases h
      have hget : t.get? = fun name => if name = w then some (UInt32.ofNat offset) else labels.get? name :=
        funext (Labels.get?_of_insert hi)
      have hsame : ∀ v, labels.get? w = some v → v = UInt32.ofNat offset := by
        intro v hg
        by_contra hne
        rw [Labels.insert_eq_error_iff.2 ⟨hg, hne⟩] at hi
        cases hi
      rw [hget]
      exact .label hw (Word.toNat_ofNat_of_lt ho) hsame
  · rw [wordsAssemble_declaration hw hrest] at h
    cases h
  · rw [wordsAssemble_operation hw hnone] at h
    cases h
  · rw [wordsAssemble_instruction, map_eq_ok_iff] at h
    obtain ⟨x, hx, hpair⟩ := h
    cases hpair
    exact .instruction (operandsOf_eq_ok_iff.1 hx)

theorem ok_of_accepts (ho : offset < 4294967296) (h : Accepts labels offset ws bytes f) :
    ∃ t, wordsAssemble true labels offset ws = .ok (bytes, t) ∧ t.get? = f := by
  cases h with
  | blank => exact ⟨labels, rfl, rfl⟩
  | @label w v hw hv hsame =>
    obtain rfl := (toNat_eq_iff ho).1 hv
    cases hi : labels.insert w (UInt32.ofNat offset) with
    | ok t => exact ⟨t, wordsAssemble_declared hw ho hi, funext (Labels.get?_of_insert hi)⟩
    | error v =>
      obtain ⟨hg, hne⟩ := Labels.insert_eq_error_iff.1 hi
      exact absurd (hsame v hg) hne
  | instruction hx =>
    exact ⟨labels, by rw [wordsAssemble_instruction, operandsOf_eq_ok_iff.2 hx, Except.map], rfl⟩

/-- The words of a line are its runs before the comment, and no line is too odd to have words. On the
last pass it is accepted if they fit the grammar, and otherwise the error is its first mistake. -/
theorem accepted_iff_grammar {line : List Char} (hline : '\n' ∉ line) (ho : offset < 4294967296) :
    ListsAll (RunAt (fun c => c ∉ [' ', '\t', '\r', ';']) (statementPart line))
        ((words line).map String.toList) ∧
      Scanner.statement line = some ((words line).map String.toList, []) ∧
      (∀ bytes f, (∃ t, (Line.read line >>= Line.assemble true offset labels) = .ok (bytes, t) ∧
          t.get? = f) ↔ Accepts labels offset (words line) bytes f) ∧
      ∀ e, (Line.read line >>= Line.assemble true offset labels) = .error e ↔
        Refuses labels offset (words line) e := by
  refine ⟨words_are_runs hline, Scanner.statement_eq line, fun bytes f => ⟨?_, ok_of_accepts ho⟩,
    fun e => ⟨refuses_of_error ho, error_of_refuses ho⟩⟩
  intro h
  obtain ⟨t, ht, rfl⟩ := h
  exact accepts_of_ok ho ht

end

/-- A register with a leading zero and a number below zero stand in a line that is accepted. -/
theorem accepted_iff_grammar_set : '\n' ∉ "\tset R05 -1;@".toList ∧ 7 < 4294967296 ∧
    ∃ t, (Line.read "\tset R05 -1;@".toList >>= Line.assemble true 7 .empty) =
      .ok ([2, 5, 255, 255, 255, 255], t) ∧ t.get? = Labels.empty.get? := by
  have hwords : words "\tset R05 -1;@".toList = ["set", "R05", "-1"] := by decide +kernel
  have hregister : RegisterWord "R05" ⟨5⟩ := readRegister_eq_ok_iff.1 (by decide)
  have hnumber : NumberWord "-1" (-1) := numberWord_iff.2 (by decide)
  have haccepts : Accepts .empty 7 ["set", "R05", "-1"] [2, 5, 255, 255, 255, 255] Labels.empty.get? :=
    .instruction (o := .set) (x := .regVal ⟨5⟩ 4294967295)
      (.regVal hregister (.number hnumber (by decide)))
  rw [← hwords] at haccepts
  have hline : '\n' ∉ "\tset R05 -1;@".toList := by decide
  have hoffset : 7 < 4294967296 := by decide
  exact ⟨hline, hoffset, ((accepted_iff_grammar hline hoffset).2.2.1 _ _).2 haccepts⟩

end WordMachine.Assembly
