import Mathlib.Data.Set.Function
import WordMachine.Proofs.Assembly.ByWords
import WordMachine.Proofs.Assembly.Words

/-!
# The same program in other words

Two texts that have the same words line by line, but for the names of labels and lines without words, are
assembled alike. The tables of the two passes agree at every step: a label has the offset in one that its
other name has in the other.
-/

namespace WordMachine.Assembly

/-! ### Renaming labels -/

/-- A renaming of labels. It leaves other words as they are. -/
structure Relabels (f : String → String) (labels : Set String) : Prop where
  kept : ∀ w, isLabel w = false → f w = w
  label : ∀ w ∈ labels, isLabel (f w) = true
  injOn : Set.InjOn f labels

def LineError.map (f : String → String) : LineError → LineError
  | invalidOperation w => .invalidOperation (f w)
  | invalidRegister w => .invalidRegister (f w)
  | invalidNumber w => .invalidNumber (f w)
  | wrongOperandCount o found => .wrongOperandCount o found
  | invalidLabelDeclaration => .invalidLabelDeclaration
  | labelRedeclared name => .labelRedeclared (f name)
  | undeclaredLabel name => .undeclaredLabel (f name)

def LabelsIn (labels : Set String) (ws : List String) : Prop := ∀ w ∈ ws, isLabel w = true → w ∈ labels

/-- A label has the offset in one table that its other name has in the other. -/
def Agree (f : String → String) (labels : Set String) (t u : Labels) : Prop :=
  ∀ w ∈ labels, u.get? (f w) = t.get? w

section

variable {f : String → String} {labels : Set String} {t u t' : Labels} {w : String} {v old : Word}

theorem labelsIn_cons {ws : List String} :
    LabelsIn labels (w :: ws) ↔ (isLabel w = true → w ∈ labels) ∧ LabelsIn labels ws :=
  List.forall_mem_cons

theorem Agree.insert (h : Agree f labels t u) (hf : Relabels f labels) (hw : w ∈ labels)
    (ht : t.insert w v = .ok t') : ∃ u', u.insert (f w) v = .ok u' ∧ Agree f labels t' u' := by
  cases hu : u.insert (f w) v with
  | error old =>
    -- the other name would stand at the same other offset
    obtain ⟨hg, hne⟩ := Labels.insert_eq_error_iff.1 hu
    rw [h w hw] at hg
    rw [Labels.insert_eq_error_iff.2 ⟨hg, hne⟩] at ht
    cases ht
  | ok u' =>
    refine ⟨u', rfl, fun x hx => ?_⟩
    have hsame : f x = f w ↔ x = w := hf.injOn.eq_iff hx hw
    simp only [Labels.get?_of_insert hu, Labels.get?_of_insert ht, hsame, h x hx]

theorem Agree.insert_error (h : Agree f labels t u) (hw : w ∈ labels)
    (ht : t.insert w v = .error old) : u.insert (f w) v = .error old := by
  obtain ⟨hg, hne⟩ := Labels.insert_eq_error_iff.1 ht
  have hother := (h w hw).trans hg
  exact Labels.insert_eq_error_iff.2 ⟨hother, hne⟩

end

/-! ### One line -/

section

variable {f : String → String} {labels : Set String} {t u : Labels} {w : String} {ws : List String}
  {last : Bool} {offset : Nat} {o : Opcode} {s : Shape}

theorem readRegister_label (h : isLabel w = true) : readRegister w = .error (.invalidRegister w) := by
  have hnone : Register.ofName? w = none := by
    obtain ⟨cs, hcs⟩ := List.head?_eq_some_iff.1 (beq_iff_eq.1 h)
    rw [Register.ofName?, hcs]
    rfl
  rw [readRegister, hnone]

theorem readRegister_renamed (hf : Relabels f labels) (hw : isLabel w = true → w ∈ labels) :
    readRegister (f w) = (readRegister w).mapError (LineError.map f) := by
  by_cases h : isLabel w = true
  · rw [readRegister_label h, readRegister_label (hf.label w (hw h))]
    rfl
  · have hkept : f w = w := hf.kept w (by simpa using h)
    rw [hkept, readRegister]
    cases Register.ofName? w with
    | some r => rfl
    | none =>
      show _ = Except.error (LineError.invalidRegister (f w))
      rw [hkept]

/-- No table decides what a word is read as that is no label. -/
theorem valueOf_other (h : isLabel w = false) : (∃ v, ∀ last labels, valueOf last labels w = .ok v) ∨
    ∀ last labels, valueOf last labels w = .error (.invalidNumber w) := by
  have hnot : ¬isLabel w = true := by simp [h]
  have hread : (∃ n, readValue w = .ok (.number n)) ∨ readValue w = .error (.invalidNumber w) := by
    rw [readValue, if_neg hnot]
    split
    · split
      · exact .inl ⟨_, rfl⟩
      · exact .inr rfl
    · exact .inr rfl
  obtain ⟨n, hn⟩ | he := hread
  · refine .inl ⟨Word.ofInt n, fun last labels => ?_⟩
    rw [valueOf, hn]
    rfl
  · refine .inr fun last labels => ?_
    rw [valueOf, he]
    rfl

theorem valueOf_renamed (hf : Relabels f labels) (ht : Agree f labels t u)
    (hw : isLabel w = true → w ∈ labels) :
    valueOf last u (f w) = (valueOf last t w).mapError (LineError.map f) := by
  by_cases h : isLabel w = true
  · have hagree := ht w (hw h)
    have hlabel := hf.label w (hw h)
    cases hg : t.get? w with
    | some v =>
      rw [valueOf_declared h hg, valueOf_declared hlabel (hagree.trans hg)]
      rfl
    | none =>
      rw [valueOf_undeclared h hg, valueOf_undeclared hlabel (hagree.trans hg)]
      cases last <;> rfl
  · have hother : isLabel w = false := by simpa using h
    have hkept := hf.kept w hother
    obtain ⟨v, hv⟩ | he := valueOf_other hother
    · rw [hkept, hv, hv]
      rfl
    · rw [hkept, he, he, Except.mapError, LineError.map, hkept]

/-- The operands of a line are read alike, and the first mistake among them is the same. -/
theorem operandsOf_renamed (hf : Relabels f labels) (ht : Agree f labels t u)
    (hws : LabelsIn labels ws) : operandsOf last u o s (ws.map f) =
      (operandsOf last t o s ws).mapError (LineError.map f) := by
  by_cases hlen : ws.length = s.count
  · obtain ⟨rfl, rfl⟩ | ⟨a, hs, rfl⟩ | ⟨a, b, hs, rfl⟩ := words_of_count hlen
    · rfl
    · have ha := (labelsIn_cons.1 hws).1
      obtain rfl | rfl := hs
      · rw [List.map_singleton, operandsOf_reg, operandsOf_reg, readRegister_renamed hf ha]
        cases readRegister a <;> rfl
      · rw [List.map_singleton, operandsOf_label, operandsOf_label, valueOf_renamed hf ht ha]
        cases valueOf last t a <;> rfl
    · obtain ⟨ha, hrest⟩ := labelsIn_cons.1 hws
      have hb := (labelsIn_cons.1 hrest).1
      obtain rfl | rfl := hs
      · rw [List.map_cons, List.map_singleton, operandsOf_regReg, operandsOf_regReg,
          readRegister_renamed hf ha, readRegister_renamed hf hb]
        cases readRegister a <;> cases readRegister b <;> rfl
      · rw [List.map_cons, List.map_singleton, operandsOf_regVal, operandsOf_regVal,
          readRegister_renamed hf ha, valueOf_renamed hf ht hb]
        cases readRegister a <;> cases valueOf last t b <;> rfl
  · have hmap : (ws.map f).length ≠ s.count := by rwa [List.length_map]
    rw [operandsOf_count hlen, operandsOf_count hmap, List.length_map]
    rfl

/-- What a line comes to and what the line in other words does: the same bytes and tables that agree, or
the same error. -/
inductive SameStep (f : String → String) (labels : Set String) :
    Except LineError (List UInt8 × Labels) → Except LineError (List UInt8 × Labels) → Prop
  | ok {bytes t u} : Agree f labels t u → SameStep f labels (.ok (bytes, t)) (.ok (bytes, u))
  | error {e} : SameStep f labels (.error e) (.error (e.map f))

theorem sameStep_declaration (hf : Relabels f labels) (ht : Agree f labels t u)
    (hw : isLabel w = true) (hmem : w ∈ labels) : SameStep f labels
      (wordsAssemble last t offset [w]) (wordsAssemble last u offset [f w]) := by
  have hlabel := hf.label w hmem
  by_cases ho : offset < 4294967296
  · cases hi : t.insert w (UInt32.ofNat offset) with
    | ok t' =>
      obtain ⟨u', hu, hagree⟩ := ht.insert hf hmem hi
      rw [wordsAssemble_declared hw ho hi, wordsAssemble_declared hlabel ho hu]
      exact .ok hagree
    | error old =>
      rw [wordsAssemble_redeclared hw ho hi,
        wordsAssemble_redeclared hlabel ho (ht.insert_error hmem hi)]
      exact .error
  · rw [wordsAssemble_beyond hw ho, wordsAssemble_beyond hlabel ho]
    exact .error

theorem sameStep_words (hf : Relabels f labels) (ht : Agree f labels t u) (hws : LabelsIn labels ws) :
    SameStep f labels (wordsAssemble last t offset ws) (wordsAssemble last u offset (ws.map f)) := by
  obtain rfl | ⟨w, hw, rfl⟩ | ⟨w, rest, hw, hrest, rfl⟩ | ⟨w, rest, hw, hnone, rfl⟩ | ⟨o, rest, rfl⟩ :=
    words_cases ws
  · exact .ok ht
  · exact sameStep_declaration hf ht hw ((labelsIn_cons.1 hws).1 hw)
  · have hlabel := hf.label w ((labelsIn_cons.1 hws).1 hw)
    have hmap : rest.map f ≠ [] := by simpa using hrest
    rw [wordsAssemble_declaration hw hrest, List.map_cons, wordsAssemble_declaration hlabel hmap]
    exact .error
  · have hkept := hf.kept w hw
    have herror : SameStep f labels (.error (.invalidOperation w)) (.error (.invalidOperation (f w))) :=
      .error
    rw [List.map_cons, wordsAssemble_operation hw hnone, hkept, wordsAssemble_operation hw hnone]
    rwa [hkept] at herror
  · have hkept := hf.kept o.mnemonic (cleanWord_mnemonic o).2
    rw [List.map_cons, hkept, wordsAssemble_instruction, wordsAssemble_instruction,
      operandsOf_renamed hf ht (labelsIn_cons.1 hws).2]
    cases operandsOf last t o o.shape rest with
    | ok x => exact .ok ht
    | error e => exact .error

end

/-! ### Texts in other words -/

/-- Lines with the words of other lines, renamed, however they are laid out. Lines without words are
left out and put in anywhere. -/
inductive Rewritten (f : String → String) : List (List Char) → List (List Char) → Prop
  | nil : Rewritten f [] []
  | left {line ls ms} : Writes [] line → Rewritten f ls ms → Rewritten f (line :: ls) ms
  | right {line ls ms} : Writes [] line → Rewritten f ls ms → Rewritten f ls (line :: ms)
  | line {ws line line' ls ms} : Writes ws line → Writes (ws.map f) line' → Rewritten f ls ms →
      Rewritten f (line :: ls) (line' :: ms)

def rows (ls : List (List Char)) : List (List String) := (ls.map words).filter (· ≠ [])

section

variable {f : String → String} {ls ms : List (List Char)} {line : List Char}
  {rest : List (List String)}

theorem rows_blank (h : words line = []) : rows (line :: ls) = rows ls := by
  simp [rows, h]

theorem rows_words (h : words line ≠ []) : rows (line :: ls) = words line :: rows ls := by
  simp [rows, h]

theorem rewritten_nil (h : rows ms = []) : Rewritten f [] ms := by
  induction ms with
  | nil => exact .nil
  | cons line ms ih =>
    by_cases hline : words line = []
    · rw [rows_blank hline] at h
      exact .right (words_eq_iff.1 hline) (ih h)
    · rw [rows_words hline] at h
      cases h

theorem rewritten_cons (hms : rows ms = (words line).map f :: rest)
    (hrest : ∀ ms, rows ms = rest → Rewritten f ls ms) : Rewritten f (line :: ls) ms := by
  induction ms with
  | nil => cases hms
  | cons line' ms ih =>
    by_cases hline' : words line' = []
    · rw [rows_blank hline'] at hms
      exact .right (words_eq_iff.1 hline') (ih hms)
    · rw [rows_words hline'] at hms
      obtain ⟨hwords, htail⟩ := List.cons.inj hms
      exact .line (writes_words line) (words_eq_iff.1 hwords) (hrest ms htail)

/-- Nothing matters but the words of the lines that have words. -/
theorem rewritten_iff_rows : Rewritten f ls ms ↔ rows ms = (rows ls).map (List.map f) := by
  constructor
  · intro h
    induction h with
    | nil => rfl
    | left hline _ ih => rw [rows_blank hline.words_eq, ih]
    | right hline _ ih => rw [rows_blank hline.words_eq, ih]
    | @line ws line line' ls ms hline hline' _ ih =>
      by_cases hws : ws = []
      · subst hws
        rw [rows_blank hline.words_eq, rows_blank hline'.words_eq, ih]
      · have hne : words line ≠ [] := by rwa [hline.words_eq]
        have hne' : words line' ≠ [] := by
          rw [hline'.words_eq]
          exact fun h => hws (List.map_eq_nil_iff.1 h)
        rw [rows_words hne, rows_words hne', ih, hline.words_eq, hline'.words_eq, List.map_cons]
  · intro h
    induction ls generalizing ms with
    | nil => exact rewritten_nil h
    | cons line ls ih =>
      by_cases hline : words line = []
      · rw [rows_blank hline] at h
        exact .left (words_eq_iff.1 hline) (ih h)
      · rw [rows_words hline] at h
        exact rewritten_cons h fun ms hms => ih hms

end

/-- Two places of lines with words, one those of the other renamed. As many lines with words stand before
one as before the other. -/
def Corresponds (f : String → String) (ls ms : List (List Char)) (i j : Nat) : Prop :=
  ∃ line line', ls[i]? = some line ∧ ms[j]? = some line' ∧ words line ≠ [] ∧
    words line' = (words line).map f ∧
    (ls.take i).countP (words · ≠ []) = (ms.take j).countP (words · ≠ [])

section

variable {f : String → String} {labels : Set String} {ls ms : List (List Char)}
  {line line' : List Char} {i j : Nat}

theorem corresponds_zero (h : words line ≠ []) (h' : words line' = (words line).map f) :
    Corresponds f (line :: ls) (line' :: ms) 0 0 :=
  ⟨line, line', rfl, rfl, h, h', rfl⟩

theorem Corresponds.left (h : Corresponds f ls ms i j) (hline : words line = []) :
    Corresponds f (line :: ls) ms (i + 1) j := by
  obtain ⟨l, l', hl, hl', hne, hmap, hcount⟩ := h
  exact ⟨l, l', hl, hl', hne, hmap, by simpa [hline] using hcount⟩

theorem Corresponds.right (h : Corresponds f ls ms i j) (hline : words line = []) :
    Corresponds f ls (line :: ms) i (j + 1) := by
  obtain ⟨l, l', hl, hl', hne, hmap, hcount⟩ := h
  exact ⟨l, l', hl, hl', hne, hmap, by simpa [hline] using hcount⟩

theorem Corresponds.both (h : Corresponds f ls ms i j) (hline : words line' = (words line).map f) :
    Corresponds f (line :: ls) (line' :: ms) (i + 1) (j + 1) := by
  obtain ⟨l, l', hl, hl', hne, hmap, hcount⟩ := h
  have hempty : words line' = [] ↔ words line = [] := by rw [hline, List.map_eq_nil_iff]
  refine ⟨l, l', hl, hl', hne, hmap, ?_⟩
  simp only [List.take_succ_cons, List.countP_cons, hcount, ne_eq, hempty]

end

/-! ### One pass -/

section

variable {f : String → String} {labels : Set String} {ls ms : List (List Char)} {line line' : List Char}
  {m n offset : Nat} {last : Bool} {t u : Labels}

/-- What a pass over lines comes to and what a pass over lines in other words does, from lines of these
numbers on. -/
inductive SamePass (f : String → String) (labels : Set String) (ls ms : List (List Char)) (m n : Nat) :
    Except Error (List UInt8) × Labels → Except Error (List UInt8) × Labels → Prop
  | ok {bytes t u} : Agree f labels t u → SamePass f labels ls ms m n (.ok bytes, t) (.ok bytes, u)
  | error {i j e t u} : Corresponds f ls ms i j →
      SamePass f labels ls ms m n (.error ⟨m + i, e⟩, t) (.error ⟨n + j, e.map f⟩, u)

theorem passFrom_blank (h : words line = []) :
    passFrom last m offset t (line :: ls) = passFrom last (m + 1) offset t ls := by
  have hstep : (Line.read line >>= Line.assemble last offset t) = .ok ([], t) := by
    rw [wordsAssemble_words, h, wordsAssemble_nil]
  rw [passFrom, hstep]
  cases hp : passFrom last (m + 1) offset t ls with
  | mk result table => cases result <;> simp [Except.map, hp]

variable {r q : Except Error (List UInt8) × Labels}

theorem SamePass.left (h : SamePass f labels ls ms (m + 1) n r q) (hline : words line = []) :
    SamePass f labels (line :: ls) ms m n r q := by
  cases h with
  | ok ht => exact .ok ht
  | @error i j e t u hij =>
    rw [Nat.add_right_comm]
    exact .error (hij.left hline)

theorem SamePass.right (h : SamePass f labels ls ms m (n + 1) r q) (hline : words line = []) :
    SamePass f labels ls (line :: ms) m n r q := by
  cases h with
  | ok ht => exact .ok ht
  | @error i j e t u hij =>
    rw [Nat.add_right_comm n]
    exact .error (hij.right hline)

theorem SamePass.both (h : SamePass f labels ls ms (m + 1) (n + 1) r q)
    (hline : words line' = (words line).map f) (bytes : List UInt8) :
    SamePass f labels (line :: ls) (line' :: ms) m n
      (r.1.map (bytes ++ ·), r.2) (q.1.map (bytes ++ ·), q.2) := by
  cases h with
  | ok ht => exact .ok ht
  | @error i j e t u hij =>
    rw [Nat.add_right_comm m, Nat.add_right_comm n]
    exact .error (hij.both hline)

/-- A pass over lines in other words does the same line after line. -/
theorem samePass (hf : Relabels f labels) (h : Rewritten f ls ms)
    (hls : ∀ line ∈ ls, LabelsIn labels (words line)) (ht : Agree f labels t u) :
    SamePass f labels ls ms m n (passFrom last m offset t ls) (passFrom last n offset u ms) := by
  induction h generalizing m n offset t u with
  | nil => exact .ok ht
  | left hline _ ih =>
    rw [passFrom_blank hline.words_eq]
    exact (ih (List.forall_mem_cons.1 hls).2 ht).left hline.words_eq
  | right hline _ ih =>
    rw [passFrom_blank hline.words_eq]
    exact (ih hls ht).right hline.words_eq
  | @line ws line line' ls ms hline hline' _ ih =>
    obtain ⟨hws, hrest⟩ := List.forall_mem_cons.1 hls
    have hwords : words line' = (words line).map f := by
      rw [hline.words_eq, hline'.words_eq]
    have hstep : SameStep f labels (wordsAssemble last t offset (words line))
        (wordsAssemble last u offset (words line')) := by
      rw [hwords]
      exact sameStep_words hf ht hws
    rw [passFrom, passFrom, wordsAssemble_words, wordsAssemble_words]
    generalize hr : wordsAssemble last t offset (words line) = r at hstep ⊢
    generalize hq : wordsAssemble last u offset (words line') = q at hstep ⊢
    cases hstep with
    | ok hagree => exact (ih hrest hagree).both hwords _
    | error =>
      have hne : words line ≠ [] := by
        intro hnil
        rw [hnil, wordsAssemble_nil] at hr
        cases hr
      exact .error (i := 0) (j := 0) (corresponds_zero hne hwords)

end

/-! ### Programs -/

def labelsOf (text : String) : Set String :=
  {w | isLabel w = true ∧ ∃ line ∈ lines text, w ∈ words line}

theorem labelsIn_labelsOf (text : String) : ∀ line ∈ lines text, LabelsIn (labelsOf text) (words line) :=
  fun line hline _ hw hlabel => ⟨hlabel, line, hline, hw⟩

section

variable {f : String → String} {text text' : String} {labels : Set String} {last : Bool} {t u : Labels}
  {ls ms : List (List Char)} {r q : Except Error (List UInt8) × Labels}

theorem samePass_text (hf : Relabels f (labelsOf text)) (h : Rewritten f (lines text) (lines text'))
    (ht : Agree f (labelsOf text) t u) : SamePass f (labelsOf text) (lines text) (lines text') 1 1
      (pass last t text) (pass last u text') :=
  samePass hf h (labelsIn_labelsOf text) ht

theorem SamePass.bytes (h : SamePass f labels ls ms 1 1 r q) (bytes : List UInt8)
    (hr : r.1 = .ok bytes) : q.1 = .ok bytes := by
  cases h with
  | ok _ => exact hr
  | error _ => cases hr

theorem SamePass.error_at (h : SamePass f labels ls ms 1 1 r q) (n : Nat) (e : LineError)
    (hr : r.1 = .error ⟨n, e⟩) : ∃ i j, n = i + 1 ∧ Corresponds f ls ms i j ∧
      q.1 = .error ⟨j + 1, e.map f⟩ := by
  cases h with
  | ok _ => cases hr
  | @error i j e' t u hij =>
    cases hr
    exact ⟨i, j, Nat.add_comm 1 i, hij, by rw [Nat.add_comm]⟩

/-- The pass that decides the result is the first if it fails, and else the last. -/
theorem exists_samePass (hf : Relabels f (labelsOf text)) (h : Rewritten f (lines text) (lines text')) :
    ∃ r q, SamePass f (labelsOf text) (lines text) (lines text') 1 1 r q ∧
      assemble text = r.1 ∧ assemble text' = q.1 := by
  have hempty : Agree f (labelsOf text) .empty .empty := fun w _ => rfl
  have hfirst : SamePass f (labelsOf text) (lines text) (lines text') 1 1
      (pass false .empty text) (pass false .empty text') := samePass_text hf h hempty
  unfold assemble
  generalize pass false .empty text = r at hfirst
  generalize pass false .empty text' = q at hfirst
  cases hfirst with
  | @error i j e t u hij =>
    exact ⟨(.error ⟨1 + i, e⟩, t), (.error ⟨1 + j, e.map f⟩, u), .error hij, rfl, rfl⟩
  | @ok bytes t u ht =>
    exact ⟨pass true t text, pass true u text', samePass_text hf h ht, rfl, rfl⟩

/-- A text with other names of labels and another layout is assembled to the same bytes, or fails with
the same error at the line that corresponds to the one of the failure. -/
theorem assemble_rewritten (hf : Relabels f (labelsOf text))
    (h : Rewritten f (lines text) (lines text')) :
    (∀ bytes, assemble text = .ok bytes → assemble text' = .ok bytes) ∧
      ∀ n e, assemble text = .error ⟨n, e⟩ → ∃ i j, n = i + 1 ∧
        Corresponds f (lines text) (lines text') i j ∧
        assemble text' = .error ⟨j + 1, e.map f⟩ := by
  obtain ⟨r, q, hsame, hr, hq⟩ := exists_samePass hf h
  rw [hr, hq]
  exact ⟨hsame.bytes, hsame.error_at⟩

/-! ### Longer names -/

/-- A label with more behind it, and any other word as it is. -/
def suffixed (suffix w : String) : String := if isLabel w then w ++ suffix else w

theorem relabels_suffixed (suffix text : String) : Relabels (suffixed suffix) (labelsOf text) := by
  have hlabel : ∀ w ∈ labelsOf text, suffixed suffix w = w ++ suffix := fun w hw => if_pos hw.1
  constructor
  · intro w hw
    rw [suffixed, hw]
    rfl
  · intro w hw
    rw [hlabel w hw]
    exact isLabel_append hw.1 suffix
  · intro v hv w hw h
    rw [hlabel v hv, hlabel w hw] at h
    exact String.append_left_inj suffix |>.1 h

theorem assemble_rewritten_suffixed :
    Relabels (suffixed "1") (labelsOf "@a\njmp @a ; back") ∧
    Rewritten (suffixed "1") (lines "@a\njmp @a ; back") (lines ";go\n\t@a1;@a\n\njmp\t@a1") ∧
    assemble ";go\n\t@a1;@a\n\njmp\t@a1" = .ok [30, 0, 0, 0, 0] := by
  have hrelabels := relabels_suffixed "1" "@a\njmp @a ; back"
  have hrewritten : Rewritten (suffixed "1") (lines "@a\njmp @a ; back")
      (lines ";go\n\t@a1;@a\n\njmp\t@a1") := rewritten_iff_rows.2 (by decide +kernel)
  have hassemble : assemble "@a\njmp @a ; back" = .ok [30, 0, 0, 0, 0] := by decide +kernel
  exact ⟨hrelabels, hrewritten, (assemble_rewritten hrelabels hrewritten).1 _ hassemble⟩

end

end WordMachine.Assembly
