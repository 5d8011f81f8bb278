import WordMachine.Proofs.Assembly.Layout

/-!
# Passes over a program

The first pass over a text records every label at its offset, and stops at the first line that cannot
stand after those before it. With the table it leaves, a later pass gives the bytes of the layout, or
stops at the first label that no line declares. The sizes of lines do not depend on the words that
stand for labels, which keeps the passes in step.
-/

namespace WordMachine

/-! ### Replacing values -/

namespace Operands

variable {ε V W : Type} {s : Shape} {x : Operands V s} {f : V → Except ε W} {g g' : V → W}

theorem traverse_of_ok (h : ∀ v, x.value? = some v → f v = .ok (g v)) :
    x.traverse f = .ok (x.map g) := by
  cases x with
  | none | reg | regReg => rfl
  | regVal a v | label v =>
    rw [traverse, h v rfl]
    rfl

theorem traverse_of_error {v : V} {e : ε} (hv : x.value? = some v) (h : f v = .error e) :
    x.traverse f = .error e := by
  cases x with
  | none | reg | regReg => cases hv
  | regVal a w | label w =>
    cases hv
    rw [traverse, h]
    rfl

theorem map_congr (h : ∀ v, x.value? = some v → g v = g' v) : x.map g = x.map g' := by
  cases x with
  | none | reg | regReg => rfl
  | regVal a v | label v => rw [map, map, h v rfl]

theorem take_encode_map (g g' : V → Word) (x : Operands V s) :
    (x.map g).encode.take (s.size - 4) = (x.map g').encode.take (s.size - 4) := by
  cases x <;> rfl

end Operands

namespace Instruction

variable {ε V W : Type} {i : Instruction V} {f : V → Except ε W}

theorem traverse_of_ok {g : V → W} (h : ∀ v, i.operands.value? = some v → f v = .ok (g v)) :
    i.traverse f = .ok (i.map g) := by
  rw [traverse, Operands.traverse_of_ok h]
  rfl

theorem traverse_of_error {v : V} {e : ε} (hv : i.operands.value? = some v) (h : f v = .error e) :
    i.traverse f = .error e := by
  rw [traverse, Operands.traverse_of_error hv h]
  rfl

/-- Two encodings of an instruction differ in the bytes of its value alone. -/
theorem getElem?_encode_map_eq {g g' : V → Word} {k : Nat}
    (h : k + 4 < i.size ∨ i.size ≤ k ∨ ∀ v, i.operands.value? = some v → g v = g' v) :
    (i.map g).encode[k]? = (i.map g').encode[k]? := by
  obtain hk | hk | hv := h
  · cases k with
    | zero => rfl
    | succ k =>
      have hs : k < i.opcode.shape.size - 4 := by
        simp only [size, Opcode.size] at hk
        omega
      have ht := congrArg (·[k]?) (Operands.take_encode_map g g' i.operands)
      simp only [List.getElem?_take_of_lt hs] at ht
      exact ht
  · rw [List.getElem?_eq_none (Nat.le_trans (Nat.le_of_eq (i.map g).length_encode) hk),
      List.getElem?_eq_none (Nat.le_trans (Nat.le_of_eq (i.map g').length_encode) hk)]
  · rw [map, map, Operands.map_congr hv]

end Instruction

namespace Assembly

/-! ### Bytes whatever the labels are -/

def Numeric (f : Value → Word) : Prop := ∀ n, f (.number n) = Word.ofInt n

/-- Bytes are those of lines, whatever words stand for labels. -/
inductive Spells : List Line → List UInt8 → Prop
  | nil : Spells [] []
  | cons {f l ls bytes} : Numeric f → Spells ls bytes → Spells (l :: ls) (l.bytes f ++ bytes)

theorem numeric_word (ls : List Line) : Numeric (Value.word ls) := fun _ => rfl

theorem spells_flatMap {f : Value → Word} (hf : Numeric f) (ls : List Line) :
    Spells ls (ls.flatMap (Line.bytes f)) := by
  induction ls with
  | nil => exact .nil
  | cons l ls ih => exact .cons hf ih

theorem spells_image (ls : List Line) : Spells ls (image ls) := by
  rw [image_eq]
  exact spells_flatMap (numeric_word ls) ls

theorem Spells.length_eq {ls : List Line} {bytes : List UInt8} (h : Spells ls bytes) :
    bytes.length = extent ls := by
  induction h with
  | nil => rfl
  | cons _ _ ih => rw [List.length_append, length_bytes, ih, extent_cons]

/-- The place of a byte is among the four bytes of a label in an instruction. -/
def InLabel (ls : List Line) (k : Nat) : Prop :=
  ∃ (i : Nat) (x : Instruction Value) (name : String), ls[i]? = some (.instruction x) ∧
    x.operands.value? = some (.label name) ∧
    extent (ls.take i) + x.size ≤ k + 4 ∧ k < extent (ls.take i) + x.size

theorem inLabel_cons {l : Line} {ls : List Line} {k : Nat} (h : InLabel ls k) :
    InLabel (l :: ls) (l.size + k) := by
  obtain ⟨i, x, name, hi, hv, hle, hlt⟩ := h
  refine ⟨i + 1, x, name, hi, hv, ?_⟩
  rw [List.take_succ_cons, extent_cons]
  omega

theorem inLabel_of_bytes_ne {f g : Value → Word} (hf : Numeric f) (hg : Numeric g) {l : Line}
    {ls : List Line} {k : Nat} (h : (l.bytes f)[k]? ≠ (l.bytes g)[k]?) : InLabel (l :: ls) k := by
  cases l with
  | blank | label => exact absurd rfl h
  | instruction i =>
    have hne : ¬ (k + 4 < i.size ∨ i.size ≤ k ∨ ∀ v, i.operands.value? = some v → f v = g v) :=
      fun hor => h (Instruction.getElem?_encode_map_eq hor)
    obtain ⟨hk, hk', hv⟩ := by simpa only [not_or] using hne
    cases hi : i.operands.value? with
    | none => exact absurd (fun v hv' => by rw [hi] at hv'; cases hv') hv
    | some v =>
      cases v with
      | number n =>
        refine absurd (fun v hv' => ?_) hv
        rw [hi] at hv'
        cases hv'
        rw [hf, hg]
      | label name =>
        refine ⟨0, i, name, rfl, hi, ?_⟩
        rw [List.take_zero, extent_nil]
        omega

theorem Spells.inLabel {ls : List Line} {xs ys : List UInt8} (hx : Spells ls xs) (hy : Spells ls ys)
    {k : Nat} (h : xs[k]? ≠ ys[k]?) : InLabel ls k := by
  induction hx generalizing ys k with
  | nil =>
    cases hy
    exact absurd rfl h
  | @cons f l ls bytes hf _ ih =>
    cases hy with
    | @cons g _ _ bytes' hg hy =>
      by_cases hk : k < l.size
      · rw [List.getElem?_append_left (by rwa [length_bytes]),
          List.getElem?_append_left (by rwa [length_bytes])] at h
        exact inLabel_of_bytes_ne hf hg h
      · rw [List.getElem?_append_right (by rw [length_bytes]; omega),
          List.getElem?_append_right (by rw [length_bytes]; omega), length_bytes, length_bytes] at h
        have hin := inLabel_cons (l := l) (ih hy h)
        rwa [Nat.add_sub_cancel' (by omega)] at hin

/-! ### Tables -/

/-- The table has the labels that lines declare, at their offsets, and no others. -/
def Labels.Records (t : Labels) (ls : List Line) : Prop :=
  ∀ name v, t.get? name = some v ↔ ∃ o, DeclaredAt ls name o ∧ UInt32.ofNat o = v

theorem records_empty : Labels.empty.Records [] := by
  intro name v
  simp [not_declaredAt_nil]

section

variable {t u : Labels} {ls : List Line} {l : Line} {name : String} {o : Nat}

theorem Labels.Records.get? (ht : t.Records ls) (hd : DeclaredAt ls name o) :
    t.get? name = some (UInt32.ofNat o) :=
  (ht _ _).2 ⟨o, hd, rfl⟩

theorem Labels.Records.get?_eq_none (ht : t.Records ls) (h : name ∉ declarations ls) :
    t.get? name = none := by
  cases hg : t.get? name with
  | none => rfl
  | some v =>
    obtain ⟨o, hd, _⟩ := (ht _ _).1 hg
    exact absurd (mem_declarations_iff_declaredAt.2 ⟨o, hd⟩) h

theorem Labels.Records.skip (ht : t.Records ls) (hl : l.declared? = none) : t.Records (ls ++ [l]) := by
  intro name v
  have hne : l ≠ .label name := by
    rintro rfl
    cases hl
  simp [ht name v, declaredAt_concat, hne]

theorem Labels.Records.insert (ht : t.Records ls)
    (hu : t.insert name (UInt32.ofNat (extent ls)) = .ok u) : u.Records (ls ++ [.label name]) := by
  intro other v
  rw [Labels.get?_of_insert hu]
  simp only [declaredAt_concat, Line.label.injEq]
  by_cases he : other = name
  · subst he
    rw [if_pos rfl]
    constructor
    · rintro ⟨⟩
      exact ⟨_, .inr ⟨rfl, rfl⟩, rfl⟩
    · rintro ⟨o, hd | ⟨_, rfl⟩, rfl⟩
      · by_cases ho : UInt32.ofNat o = UInt32.ofNat (extent ls)
        · rw [ho]
        · have herr := Labels.insert_eq_error_iff.2 ⟨ht.get? hd, ho⟩
          rw [hu] at herr
          cases herr
      · rfl
  · rw [if_neg he, ht other v]
    simp [Ne.symm he]

theorem ofNat_inj {a b : Nat} (ha : a < 4294967296) (hb : b < 4294967296)
    (h : UInt32.ofNat a = UInt32.ofNat b) : a = b := by
  have hn := congrArg UInt32.toNat h
  rwa [UInt32.toNat_ofNat_of_lt' ha, UInt32.toNat_ofNat_of_lt' hb] at hn

/-! ### The first pass -/

/-- The word of a value on the first pass: a label that is not recorded yet is zero. -/
def Labels.word (t : Labels) : Value → Word
  | .number n => Word.ofInt n
  | .label name => (t.get? name).getD 0

theorem resolve_first (t : Labels) (v : Value) : Value.resolve false t v = .ok (t.word v) := by
  cases v with
  | number n => rfl
  | label name => cases hg : t.get? name <;> simp [Value.resolve, Labels.word, hg]

theorem assemble_label {last : Bool} (ho : o < 4294967296)
    (hu : t.insert name (UInt32.ofNat o) = .ok u) :
    Line.assemble last o t (.label name) = .ok ([], u) := by
  rw [Line.assemble, if_pos ho, hu]

theorem assemble_valid (ht : t.Records ls) (hl : l.ValidAfter ls) :
    ∃ f u, Line.assemble false (extent ls) t l = .ok (l.bytes f, u) ∧ Numeric f ∧
      u.Records (ls ++ [l]) := by
  cases l with
  | blank => exact ⟨Value.word [], t, rfl, numeric_word [], ht.skip rfl⟩
  | label name =>
    cases hu : t.insert name (UInt32.ofNat (extent ls)) with
    | ok u => exact ⟨Value.word [], u, assemble_label hl.1 hu, numeric_word [], ht.insert hu⟩
    | error old =>
      obtain ⟨hg, hne⟩ := Labels.insert_eq_error_iff.1 hu
      obtain ⟨o, hd, rfl⟩ := (ht _ _).1 hg
      exact absurd (congrArg UInt32.ofNat (hl.2 o hd)) hne
  | instruction i =>
    refine ⟨t.word, t, ?_, fun n => rfl, ht.skip rfl⟩
    rw [Line.assemble, Instruction.traverse_of_ok fun v _ => resolve_first t v]
    rfl

theorem assemble_invalid (ht : t.Records ls) (hv : Valid ls) (hl : ¬ l.ValidAfter ls) :
    ∃ e, Line.assemble false (extent ls) t l = .error e := by
  cases l with
  | blank | instruction => exact absurd trivial hl
  | label name =>
    by_cases hlt : extent ls < 4294967296
    · cases hu : t.insert name (UInt32.ofNat (extent ls)) with
      | error old => exact ⟨_, by rw [Line.assemble, if_pos hlt, hu]⟩
      | ok u =>
        refine absurd ⟨hlt, fun o hd => ?_⟩ hl
        have hg := (Labels.get?_of_insert hu name).symm.trans
          ((ht.insert hu).get? (declaredAt_concat.2 (.inl hd)))
        rw [if_pos rfl] at hg
        exact (ofNat_inj hlt (hv.lt hd) (Option.some.inj hg)).symm
    · exact ⟨_, by rw [Line.assemble, if_neg hlt]⟩

end

section

variable {last : Bool} {number o : Nat} {t u : Labels} {l : Line} {line : List Char}
  {texts : List (List Char)} {bytes : List UInt8} {e : LineError}

theorem passFrom_cons_ok (hr : Line.read line = .ok l)
    (ha : Line.assemble last o t l = .ok (bytes, u)) :
    passFrom last number o t (line :: texts) =
      ((passFrom last (number + 1) (o + bytes.length) u texts).1.map (bytes ++ ·),
        (passFrom last (number + 1) (o + bytes.length) u texts).2) := by
  have hb : (Line.read line >>= Line.assemble last o t) = .ok (bytes, u) := by
    rw [hr]
    exact ha
  rw [passFrom, hb]

theorem passFrom_cons_error (h : (Line.read line >>= Line.assemble last o t) = .error e) :
    passFrom last number o t (line :: texts) = (.error ⟨number, e⟩, t) := by
  rw [passFrom, h]

end

def Reads (texts : List (List Char)) (ls : List Line) : Prop := texts.map Line.read = ls.map .ok

theorem reads_cons {line : List Char} {texts : List (List Char)} {l : Line} {ls : List Line}
    (hl : Line.read line = .ok l) (h : Reads texts ls) : Reads (line :: texts) (l :: ls) := by
  rw [Reads, List.map_cons, List.map_cons, hl, h]

theorem Reads.cons_inv {line : List Char} {texts : List (List Char)} {ls : List Line}
    (h : Reads (line :: texts) ls) : ∃ k ks, ls = k :: ks ∧ Line.read line = .ok k ∧ Reads texts ks := by
  cases ls with
  | nil => cases h
  | cons k ks =>
    obtain ⟨hl, ht⟩ := List.cons.inj h
    exact ⟨k, ks, rfl, hl, ht⟩

/-- The first pass reads every line and records the labels of all, or stops at the first line that
cannot be read or cannot stand after the lines before it. -/
theorem passFrom_first {texts : List (List Char)} {before : List Line} {t : Labels} (number : Nat)
    (ht : t.Records before) (hv : Valid before) :
    (∃ ls bytes u, Reads texts ls ∧ Valid (before ++ ls) ∧ u.Records (before ++ ls) ∧
      Spells ls bytes ∧ passFrom false number (extent before) t texts = (.ok bytes, u)) ∨
    ∃ i ls line e u, texts[i]? = some line ∧ Reads (texts.take i) ls ∧ Valid (before ++ ls) ∧
      (∀ l, Line.read line = .ok l → ¬ l.ValidAfter (before ++ ls)) ∧
      passFrom false number (extent before) t texts = (.error ⟨number + i, e⟩, u) := by
  induction texts generalizing before t number with
  | nil => exact .inl ⟨[], [], t, rfl, by simpa using hv, by simpa using ht, .nil, rfl⟩
  | cons line texts ih =>
    -- the pass stops here if the line cannot be read, or can be read but cannot stand here
    have hstop : (∀ l, Line.read line = .ok l → ¬ l.ValidAfter before) →
        (∃ e, (Line.read line >>= Line.assemble false (extent before) t) = .error e) →
        ∃ i ls line' e u, (line :: texts)[i]? = some line' ∧ Reads ((line :: texts).take i) ls ∧
          Valid (before ++ ls) ∧ (∀ l, Line.read line' = .ok l → ¬ l.ValidAfter (before ++ ls)) ∧
          passFrom false number (extent before) t (line :: texts) = (.error ⟨number + i, e⟩, u) := by
      rintro hl ⟨e, he⟩
      exact ⟨0, [], line, e, t, rfl, rfl, by simpa using hv, by simpa using hl, passFrom_cons_error he⟩
    cases hr : Line.read line with
    | error e =>
      refine .inr (hstop (fun l hl => ?_) ⟨e, by rw [hr]; rfl⟩)
      rw [hr] at hl
      cases hl
    | ok l =>
      by_cases hl : l.ValidAfter before
      · obtain ⟨f, u, ha, hf, hu⟩ := assemble_valid ht hl
        have hoff : extent before + (l.bytes f).length = extent (before ++ [l]) := by
          rw [length_bytes, extent_concat]
        rw [passFrom_cons_ok hr ha, hoff]
        rcases ih (number + 1) hu (valid_concat hv hl) with
          ⟨ls, bytes, u', hread, hvalid, hrec, hspell, hp⟩ |
          ⟨i, ls, line', e, u', hi, hread, hvalid, hbad, hp⟩
        · rw [List.append_assoc, List.singleton_append] at hvalid hrec
          exact .inl ⟨l :: ls, _, u', reads_cons hr hread, hvalid, hrec, .cons hf hspell, by rw [hp]; rfl⟩
        · rw [List.append_assoc, List.singleton_append] at hvalid hbad
          refine .inr ⟨i + 1, l :: ls, line', e, u', hi, reads_cons hr hread, hvalid, hbad, ?_⟩
          rw [hp, Nat.add_assoc, Nat.add_comm 1]
          rfl
      · obtain ⟨e, he⟩ := assemble_invalid ht hv hl
        refine .inr (hstop (fun k hk => ?_) ⟨e, by rw [hr]; exact he⟩)
        rw [hr] at hk
        cases hk
        exact hl

/-! ### Later passes -/

section

variable {t : Labels} {ls before after : List Line} {l : Line} {name : String}

theorem assemble_declared (ht : t.Records ls) (hv : Valid ls) (hls : ls = before ++ l :: after)
    (hl : ∀ name, l.reference? = some name → name ∈ declarations ls) (last : Bool) :
    Line.assemble last (extent before) t l = .ok (l.bytes (Value.word ls), t) := by
  cases l with
  | blank => rfl
  | label name =>
    have hd : DeclaredAt ls name (extent before) := by
      rw [hls]
      exact declaredAt_append.2 (.inr ⟨0, declaredAt_cons.2 (.inl ⟨rfl, rfl⟩), rfl⟩)
    refine assemble_label (hv.lt hd) ?_
    rw [Labels.insert, ht.get? hd]
    exact if_pos rfl
  | instruction i =>
    have hw : ∀ v, i.operands.value? = some v → Value.resolve last t v = .ok (Value.word ls v) := by
      intro v hi
      cases v with
      | number n => rfl
      | label name =>
        have hr : (Line.instruction i).reference? = some name := by
          simp [Line.reference?, Line.instruction?, hi, Value.label?]
        have hd := declaredAt_offsetOf (hl name hr)
        rw [Value.resolve, ht.get? hd]
        rfl
    rw [Line.assemble, Instruction.traverse_of_ok hw]
    rfl

theorem assemble_undeclared (ht : t.Records ls) (hl : l.reference? = some name)
    (hn : name ∉ declarations ls) (o : Nat) :
    Line.assemble true o t l = .error (.undeclaredLabel name) := by
  cases l with
  | blank | label => cases hl
  | instruction i =>
    have hl' : i.operands.value?.bind Value.label? = some name := hl
    obtain ⟨v, hi, hv⟩ := Option.bind_eq_some_iff.1 hl'
    cases v with
    | number n => cases hv
    | label name' =>
      cases hv
      have hr : Value.resolve true t (.label name) = .error (.undeclaredLabel name) := by
        rw [Value.resolve, ht.get?_eq_none hn]
        rfl
      rw [Line.assemble, Instruction.traverse_of_error hi hr]
      rfl

end

/-- A pass with the table of all lines gives the bytes of the layout and leaves the table, or stops at
the first label that no line declares. -/
theorem passFrom_later {t : Labels} {ls before after : List Line} {texts : List (List Char)}
    (number : Nat) (ht : t.Records ls) (hv : Valid ls) (hls : ls = before ++ after)
    (hr : Reads texts after) :
    (references after ⊆ declarations ls ∧ ∀ last, passFrom last number (extent before) t texts =
      (.ok (after.flatMap (Line.bytes (Value.word ls))), t)) ∨
    ∃ i l name, after[i]? = some l ∧ l.reference? = some name ∧ name ∉ declarations ls ∧
      references (after.take i) ⊆ declarations ls ∧
      passFrom true number (extent before) t texts =
        (.error ⟨number + i, .undeclaredLabel name⟩, t) := by
  induction texts generalizing before after number with
  | nil =>
    cases List.map_eq_nil_iff.1 (Eq.symm hr)
    exact .inl ⟨List.nil_subset _, fun last => rfl⟩
  | cons line texts ih =>
    obtain ⟨l, rest, rfl, hl, hrest⟩ := hr.cons_inv
    have hls' : ls = (before ++ [l]) ++ rest := by rw [hls, List.append_assoc, List.singleton_append]
    by_cases hd : ∀ name, l.reference? = some name → name ∈ declarations ls
    · -- the line keeps the table, so the rest is assembled with it from the next offset on
      have hstep : ∀ last, passFrom last number (extent before) t (line :: texts) =
          ((passFrom last (number + 1) (extent (before ++ [l])) t texts).1.map
            (l.bytes (Value.word ls) ++ ·),
          (passFrom last (number + 1) (extent (before ++ [l])) t texts).2) := by
        intro last
        have hoff : extent (before ++ [l]) = extent before + l.size := extent_concat before l
        rw [passFrom_cons_ok hl (assemble_declared ht hv hls hd last), length_bytes, hoff]
      have hcons : ∀ {ks : List Line}, references ks ⊆ declarations ls →
          references (l :: ks) ⊆ declarations ls := by
        intro ks hks name hn
        obtain ⟨k, hk, hkn⟩ := List.mem_filterMap.1 hn
        cases List.mem_cons.1 hk with
        | inl he => exact hd name (he ▸ hkn)
        | inr hm => exact hks (List.mem_filterMap.2 ⟨k, hm, hkn⟩)
      rcases ih (number + 1) hls' hrest with ⟨hrefs, hp⟩ | ⟨i, k, name, hi, hk, hn, hrefs, hp⟩
      · refine .inl ⟨hcons hrefs, fun last => ?_⟩
        rw [hstep, hp]
        rfl
      · refine .inr ⟨i + 1, k, name, hi, hk, hn, hcons hrefs, ?_⟩
        rw [hstep, hp, Nat.add_assoc, Nat.add_comm 1]
        rfl
    · obtain ⟨name, hd⟩ := Classical.not_forall.1 hd
      obtain ⟨hname, hn⟩ := Classical.not_imp.1 hd
      refine .inr ⟨0, l, name, rfl, hname, hn, List.nil_subset _, passFrom_cons_error ?_⟩
      rw [hl]
      exact assemble_undeclared ht hname hn _

end Assembly

end WordMachine
