import WordMachine.Proofs.Assembly.Rendering
import WordMachine.Proofs.Compiler.Assembled
import WordMachine.Proofs.Compiler.Labels
import WordMachine.Proofs.Compiler.Numbers
import WordMachine.Proofs.Source.Size

/-!
# Compiled programs can be assembled

The text of a compiled program is read as it was written, it declares each of its labels once, and
every label that it refers to. So it is assembled, if its instructions have offsets.
-/

namespace WordMachine.Compiler

open Assembly Source

section

variable {fs : List Function} {codes : List Code} {code : Code} {line : Line} {name : String}

/-! ### Labels -/

theorem Compiled.exists_label (h : Compiled fs codes code) (hn : name ∈ declarations code) :
    ∃ l : Label, name = l.text := by
  have hl := mem_declarations_iff.1 hn
  obtain he | he | he | ⟨lines, hlines, hm⟩ := h.cases hl
  · cases he
  · cases he
  · exact ⟨.programEnd, Line.label.inj he⟩
  · generalize hline : Line.label name = line at hm
    cases h.ordinary lines hlines line hm with
    | entry | label => exact ⟨_, Line.label.inj hline⟩
    | branch hb => cases hb <;> cases hline
    | _ => cases hline

theorem nodup_declarations_of_compile {text : String} (hc : compile text = .ok code)
    (h : Compiled fs codes code) : (declarations code).Nodup := by
  refine List.nodup_iff_count.2 fun name => ?_
  by_cases hn : name ∈ declarations code
  · obtain ⟨l, rfl⟩ := h.exists_label hn
    exact times_le_one_of_compile hc l
  · rw [List.count_eq_zero.2 hn]
    exact Nat.zero_le 1

theorem EmitsFunctions.exists_get {n : Nat} (h : EmitsFunctions fs n codes) {lines : Code}
    (hl : lines ∈ codes) : ∃ f ∈ fs, ∃ n n₁, function f n = .ok (lines, n₁) := by
  obtain ⟨i, hi⟩ := List.getElem?_of_mem hl
  have hlt : i < fs.length := by
    rw [← h.length_eq]
    exact (List.getElem?_eq_some_iff.1 hi).1
  exact ⟨fs[i], List.getElem_mem hlt, h.get (List.getElem?_eq_getElem hlt) hi⟩

/-! ### References -/

theorem Compiled.mem_of_defined (h : Compiled fs codes code) {g : Signature} (hg : g ∈ defined fs) :
    Code.label (.function g) ∈ code := by
  have hpart : ∀ {lines}, lines ∈ builtinCodes ++ codes → Code.label (.function g) ∈ lines →
      Code.label (.function g) ∈ code := by
    intro lines hlines hm
    rw [h.code_eq]
    exact List.mem_append_left _ (List.mem_append_right _ (List.mem_flatten.2 ⟨lines, hlines, hm⟩))
  rw [defined, List.mem_append, List.mem_map] at hg
  obtain hb | ⟨f, hf, rfl⟩ := hg
  · simp only [Signature.builtins, List.mem_cons, List.not_mem_nil, or_false] at hb
    obtain rfl | rfl := hb
    · exact hpart (List.mem_append_left _ (List.mem_cons_self ..)) (List.mem_cons_self ..)
    · exact hpart (List.mem_append_left _ (List.mem_cons_of_mem _ (List.mem_cons_self ..)))
        (List.mem_cons_self ..)
  · obtain ⟨i, hi⟩ := List.getElem?_of_mem hf
    have hlt : i < codes.length := by
      rw [h.emits.length_eq]
      exact (List.getElem?_eq_some_iff.1 hi).1
    obtain ⟨n, n₁, hfun⟩ := h.emits.get hi (List.getElem?_eq_getElem hlt)
    obtain ⟨body, _, hcode⟩ := emitsFunction_of_function hfun
    refine hpart (List.mem_append_right _ (List.getElem_mem hlt)) ?_
    rw [hcode]
    simp

theorem closed_of_part (h : Compiled fs codes code) {lines : Code}
    (hl : lines ∈ builtinCodes ++ codes) : ∃ s shapeOf, Closed s shapeOf lines := by
  cases List.mem_append.1 hl with
  | inl hb =>
    simp only [builtinCodes, List.mem_cons, List.not_mem_nil, or_false] at hb
    obtain rfl | rfl := hb
    · exact ⟨_, _, closed_printchar False fun _ => []⟩
    · exact ⟨_, _, closed_readchar False fun _ => []⟩
  | inr hm =>
    obtain ⟨f, _, n, n₁, hf⟩ := h.emits.exists_get hm
    exact ⟨_, closed_of_emitsFunction (s := ⟨f.locals.length, f.parameters.length, False⟩)
      (emitsFunction_of_function hf) rfl rfl False.elim⟩

theorem targets_of_part (h : Compiled fs codes code) {lines : Code}
    (hl : lines ∈ builtinCodes ++ codes) : Targets (fun name => Line.label name ∈ lines) lines := by
  obtain ⟨_, _, hclosed⟩ := closed_of_part h hl
  exact hclosed.targets

theorem Ordinary.reference {p : Signature → Prop} (h : Ordinary p line)
    (hr : line.reference? = some name) :
    (∃ g, p g ∧ line = Code.call (.function g)) ∨ jumpTarget? line = some name := by
  cases h with
  | blank | entry | label => cases hr
  | call hg => exact .inl ⟨_, hg, rfl⟩
  | jump => exact .inr hr
  | branch hb => cases hb <;> exact .inr hr
  | set => cases hr
  | plain hv =>
    rw [Line.reference?, Line.instruction?, Option.bind_some, hv] at hr
    cases hr

theorem Compiled.references_subset (h : Compiled fs codes code) :
    references code ⊆ declarations code := by
  intro name hn
  obtain ⟨line, hl, hr⟩ := List.mem_filterMap.1 hn
  refine mem_declarations_iff.2 ?_
  obtain rfl | rfl | rfl | ⟨lines, hlines, hm⟩ := h.cases hl
  · cases hr
    exact h.mem_of_defined (main_defined_of_check h.check)
  · cases hr
    rw [h.code_eq]
    exact List.mem_append_right _ (List.mem_cons_self ..)
  · cases hr
  · obtain ⟨g, hg, rfl⟩ | ht := (h.ordinary lines hlines line hm).reference hr
    · cases hr
      exact h.mem_of_defined hg
    · rw [h.code_eq]
      exact List.mem_append_left _ (List.mem_append_right _
        (List.mem_flatten.2 ⟨lines, hlines, targets_of_part h hlines line hm name ht⟩))

/-! ### Numbers -/

theorem Compiled.fits (h : Compiled fs codes code)
    (hs : ∀ f ∈ fs, f.parameters.length + f.locals.length + 4294967296 ≤ 2305843009213693952)
    (hx : extent code < 4294967296) : ∀ line ∈ code, line.Fits := by
  intro line hl
  obtain rfl | rfl | rfl | ⟨lines, hlines, hm⟩ := h.cases hl
  · rintro v ⟨⟩
    exact trivial
  · rintro v ⟨⟩
    exact trivial
  · exact trivial
  · have hle : extent lines ≤ extent code := by
      have hflat := extent_le_of_mem hlines
      rw [h.code_eq, extent_append, extent_append]
      omega
    cases List.mem_append.1 hlines with
    | inl hb =>
      have hreach : Reaches 0 lines := by
        simp only [builtinCodes, List.mem_cons, List.not_mem_nil, or_false] at hb
        obtain rfl | rfl := hb
        · intro n hn
          cases List.mem_singleton.1 hn
          exact .inl (by decide)
        · exact reaches_of_none rfl
      exact hreach.fits (by omega) hm
    | inr hc =>
      obtain ⟨f, hf, n, n₁, hfun⟩ := h.emits.exists_get hc
      have hsize := hs f hf
      exact (reaches_of_emitsFunction (emitsFunction_of_function hfun)).fits (by omega) hm

/-! ### Assembling -/

/-- Whatever a text is compiled to is assembled, if its instructions take less than 2^32 bytes. Every
line is read as it was written, no label is declared twice, labels of different functions or numbers
have different texts, and every label in an instruction is declared. Only in a frame of about 2^61
words, which are as many as 2^64 bytes of memory hold names for, are there distances that cannot be
read. A text of fewer than 2^60 characters has no such function (`length_variables_le_of_parse`). -/
theorem compiled_program_assembles {text : String} (hc : compile text = .ok code)
    (hx : extent code < 4294967296)
    (hm : ∀ fs, parse text = .ok fs → ∀ f ∈ fs,
      f.parameters.length + f.locals.length + 4294967296 ≤ 2305843009213693952) :
    assemble (render code) = .ok (image code) ∧ (image code).length = extent code ∧
      lines (render code) = code.map (fun line => line.text.toList) ++ [[]] ∧
      (∀ line ∈ code, Line.read line.text.toList = .ok line) ∧
      (declarations code).Nodup ∧ (∀ name ∈ declarations code, ∃ l : Label, name = l.text) ∧
      (∀ l l' : Label, l.text = l'.text → l = l') ∧
      references code ⊆ declarations code := by
  obtain ⟨fs, _, hp, _⟩ := compile_eq_ok hc
  obtain ⟨codes, h⟩ := compiled_of_compile hp hc
  have hclean := h.clean (isWord_of_defined hp)
  have hfits := h.fits (hm fs hp) hx
  have hnodup := nodup_declarations_of_compile hc h
  exact ⟨assemble_render hclean hfits (valid_of_nodup hnodup hx) h.references_subset,
    (spells_image code).length_eq, lines_render hclean,
    fun line hl => (read_text (hclean line hl)).2 ⟨rfl, hfits line hl⟩, hnodup,
    fun _ => h.exists_label, fun _ _ => Label.text_inj.1, h.references_subset⟩

end

/-- Two functions of like names, one with an underscore and one with a parameter. -/
theorem compiled_program_assembles_underscore : ∃ code,
    compile "DEF f_1() END; DEF f(a) WHILE a = 1 DO BREAK; END; END; DEF main() f_1(); END;" =
      .ok code ∧ extent code < 4294967296 ∧
    assemble (render code) = .ok (image code) ∧ (declarations code).Nodup := by
  have hfits : (compile
      "DEF f_1() END; DEF f(a) WHILE a = 1 DO BREAK; END; END; DEF main() f_1(); END;").toOption.any
      (fun code => decide (extent code < 4294967296)) = true := by decide +kernel
  cases hc : compile
      "DEF f_1() END; DEF f(a) WHILE a = 1 DO BREAK; END; END; DEF main() f_1(); END;" with
  | error e =>
    rw [hc] at hfits
    cases hfits
  | ok code =>
    rw [hc] at hfits
    have hx : extent code < 4294967296 := of_decide_eq_true hfits
    obtain ⟨ha, _, _, _, hn, _⟩ := compiled_program_assembles hc hx fun fs hp f hf =>
      Nat.le_trans (Nat.add_le_add_right (length_variables_le_of_parse hp f hf) _) (by decide)
    exact ⟨code, rfl, hx, ha, hn⟩

end WordMachine.Compiler
