import WordMachine.Proofs.Assembly.Assembling
import WordMachine.Proofs.Compiler.Discipline
import WordMachine.Proofs.Compiler.Lines
import WordMachine.Proofs.Source.Names

/-!
# Assembled programs

The text of a compiled program is read back line by line, so the assembled program has the compiled
lines in their places.
-/

namespace WordMachine.Compiler

open Assembly Source

/-! ### Labels are words -/

theorem clean_of_isWordPart {c : Char} (h : isWordPart c = true) : Clean c := by
  simp only [isWordPart, Bool.or_eq_true, beq_iff_eq] at h
  obtain h | rfl := h
  · exact clean_of_isAlphanum h
  · decide

theorem stem_text {l : Label} (h : ∀ g, l = .function g → IsWord g.name) : Stem l.text := by
  have hrepr : ∀ {a : String} {n : Nat}, Stem a → Stem (a ++ n.repr) :=
    fun ha => ha.append fun c => clean_repr
  cases l with
  | function g =>
    have ha : Stem "@func_" := by decide
    have hu : IsWord "_" := by decide
    exact hrepr ((ha.append fun c hc => clean_of_isWordPart (h g rfl c hc)).append
      fun c hc => clean_of_isWordPart (hu c hc))
  | programEnd => decide
  | truth id | otherwise id | endIf id | loop id | endLoop id | count id | nextCount id
  | endCount id => exact hrepr (by decide)

theorem stem_of_id? {l : Label} (h : l.id?.isSome) : Stem l.text :=
  stem_text (by rintro g rfl; cases h)

theorem Ordinary.clean {p : Signature → Prop} {line : Line} (h : Ordinary p line)
    (hp : ∀ g, p g → IsWord g.name) : line.Clean := by
  have htarget : ∀ {l : Label} {v : Value}, Stem l.text → some (Value.label l.text) = some v →
      v.Clean := by
    rintro l v hl ⟨⟩
    exact hl
  cases h with
  | blank => exact trivial
  | entry hg =>
    refine stem_text fun g' he => ?_
    cases he
    exact hp _ hg
  | label hl => exact stem_of_id? hl
  | call hg =>
    refine fun v hv => htarget (stem_text fun g' he => ?_) hv
    cases he
    exact hp _ hg
  | jump hl => exact fun v hv => htarget (stem_of_id? hl) hv
  | branch hb hl => cases hb <;> exact fun v hv => htarget (stem_of_id? hl) hv
  | set =>
    rintro v ⟨⟩
    exact Int.natCast_nonneg _
  | plain hv =>
    intro v hv'
    rw [hv] at hv'
    cases hv'

/-! ### Whole programs -/

theorem isWord_of_defined {text : String} {fs : List Function} (h : parse text = .ok fs) :
    ∀ g ∈ defined fs, IsWord g.name := by
  intro g hg
  rw [defined, List.mem_append, List.mem_map] at hg
  obtain hb | ⟨f, hf, rfl⟩ := hg
  · simp only [Signature.builtins, List.mem_cons, List.not_mem_nil, or_false] at hb
    obtain rfl | rfl := hb <;> decide
  · exact isWord_of_parse h f hf

theorem EmitsFunctions.ordinary {fs gs : List Function} {n : Nat} {codes : List Code}
    (h : EmitsFunctions fs n codes) (hc : check gs = .ok ()) (hsub : ∀ f ∈ fs, f ∈ gs) :
    ∀ lines ∈ codes, AllOrdinary (· ∈ defined gs) lines := by
  induction h with
  | nil => simp
  | @cons f fs n n₁ code codes hf _ ih =>
    refine List.forall_mem_cons.2 ⟨?_, ih fun f' hf' => hsub f' (List.mem_cons_of_mem _ hf')⟩
    have hmem := hsub f (List.mem_cons_self ..)
    refine (ordinary_of_emitsFunction (emitsFunction_of_function hf)).mono ?_
    rintro g (rfl | hg)
    · exact List.mem_append_right _ (List.mem_map_of_mem hmem)
    · exact callees_defined_of_check hc hmem hg

theorem ordinary_of_builtin {fs : List Function} {lines : Code} (h : lines ∈ builtinCodes) :
    AllOrdinary (· ∈ defined fs) lines := by
  have hd : ∀ {g}, g ∈ Signature.builtins → g ∈ defined fs := List.mem_append_left _
  simp only [builtinCodes, List.mem_cons, List.not_mem_nil, or_false] at h
  obtain rfl | rfl := h
  · exact .cons (.entry (hd (by decide))) (.cons .set (.cons (.plain rfl) (.cons (.plain rfl)
      (.cons (.plain rfl) (allOrdinary_single (.plain rfl))))))
  · exact .cons (.entry (hd (by decide))) (.cons (.plain rfl) (allOrdinary_single (.plain rfl)))

/-- A compiled program in the bytes it is assembled to. -/
structure Linked (fs : List Function) (codes : List Code) (labels : Labels) (program : List UInt8) :
    Prop where
  emits : EmitsFunctions fs 0 codes
  check : check fs = .ok ()
  ordinary : ∀ lines ∈ builtinCodes ++ codes, AllOrdinary (· ∈ defined fs) lines
  placed : Placed labels program 0
    (bootstrap ++ (builtinCodes ++ codes).flatten ++ [Code.label .programEnd])
  length : program.length =
    extent (bootstrap ++ (builtinCodes ++ codes).flatten ++ [Code.label .programEnd])

/-- A compiled program as the code of its functions, between the call of `main` and the end. -/
structure Compiled (fs : List Function) (codes : List Code) (code : Code) : Prop where
  emits : EmitsFunctions fs 0 codes
  check : check fs = .ok ()
  ordinary : ∀ lines ∈ builtinCodes ++ codes, AllOrdinary (· ∈ defined fs) lines
  code_eq : code = bootstrap ++ (builtinCodes ++ codes).flatten ++ [Code.label .programEnd]

theorem compiled_of_compile {text : String} {fs : List Function} {code : Code}
    (hp : parse text = .ok fs) (hc : compile text = .ok code) : ∃ codes, Compiled fs codes code := by
  obtain ⟨fs', codes, hp', hcheck, he, hcode⟩ := compile_eq_ok hc
  rw [hp] at hp'
  cases hp'
  rw [preamble_eq, List.append_assoc bootstrap, ← List.flatten_append] at hcode
  refine ⟨codes, he, hcheck, fun lines hl => ?_, hcode⟩
  cases List.mem_append.1 hl with
  | inl hb => exact ordinary_of_builtin hb
  | inr hm => exact he.ordinary hcheck (fun _ h => h) lines hm

section

variable {fs : List Function} {codes : List Code} {code : Code}

theorem Compiled.cases (h : Compiled fs codes code) {line : Line} (hl : line ∈ code) :
    line = Code.call (.function .main) ∨ line = Code.jmp .programEnd ∨
      line = Code.label .programEnd ∨ ∃ lines ∈ builtinCodes ++ codes, line ∈ lines := by
  simp only [h.code_eq, List.mem_append, List.mem_flatten, List.mem_singleton] at hl
  obtain (hb | ⟨lines, hlines, hm⟩) | he := hl
  · simp only [bootstrap, List.mem_cons, List.not_mem_nil, or_false] at hb
    exact hb.imp_right .inl
  · exact .inr (.inr (.inr ⟨lines, List.mem_append.2 hlines, hm⟩))
  · exact .inr (.inr (.inl he))

theorem Compiled.clean (h : Compiled fs codes code) (hw : ∀ g ∈ defined fs, IsWord g.name) :
    ∀ line ∈ code, line.Clean := by
  intro line hl
  obtain rfl | rfl | rfl | ⟨lines, hlines, hm⟩ := h.cases hl
  · rintro v ⟨⟩
    refine stem_text fun g hg => ?_
    cases hg
    exact hw _ (main_defined_of_check h.check)
  · rintro v ⟨⟩
    exact stem_text (by rintro g ⟨⟩)
  · exact stem_text (by rintro g ⟨⟩)
  · exact (h.ordinary lines hlines line hm).clean hw

end

theorem linked_of_compile {text : String} {fs : List Function} {code : Code} {program : List UInt8}
    (hp : parse text = .ok fs) (hc : compile text = .ok code)
    (ha : assemble (render code) = .ok program) : ∃ codes labels, Linked fs codes labels program ∧
      code = bootstrap ++ (builtinCodes ++ codes).flatten ++ [Code.label .programEnd] := by
  obtain ⟨codes, h⟩ := compiled_of_compile hp hc
  obtain ⟨labels, hplaced, hlen⟩ := placed_of_assemble (h.clean (isWord_of_defined hp)) ha
  rw [h.code_eq] at hplaced hlen
  exact ⟨codes, labels, ⟨h.emits, h.check, h.ordinary, hplaced, hlen⟩, h.code_eq⟩

def fitsIn (size : Word) (text : String) : Bool :=
  match compile text with
  | .error _ => false
  | .ok code => (assemble (render code)).toOption.any (·.length ≤ size.toNat)

theorem installed_of_fitsIn {size : Word} {text : String} (h : fitsIn size text = true) :
    ∃ fs code program m, parse text = .ok fs ∧ compile text = .ok code ∧
      assemble (render code) = .ok program ∧ (Machine.empty size).install program = .ok m := by
  rw [fitsIn] at h
  split at h
  · cases h
  · next code hc =>
    obtain ⟨fs, _, hp, _⟩ := compile_eq_ok hc
    cases ha : assemble (render code) with
    | error e =>
      rw [ha] at h
      cases h
    | ok program =>
      rw [ha] at h
      have hlen : program.length ≤ (Machine.empty size).memory.size := by
        rw [Machine.empty, Memory.size_zeros]
        exact of_decide_eq_true h
      exact ⟨fs, code, program, _, hp, hc, ha, dif_pos hlen⟩

def installs (size : Word) (text : String) (test : List Function → Machine → Bool) : Bool :=
  (parse text).toOption.any fun fs =>
    (compile text).toOption.any fun code =>
      (assemble (render code)).toOption.any fun program =>
        ((Machine.empty size).install program).toOption.any (test fs)

theorem exists_of_any {α ε : Type} {x : Except ε α} {q : α → Bool} (hx : x.toOption.any q = true) :
    ∃ a, x = .ok a ∧ q a = true := by
  cases x with
  | error e => cases hx
  | ok a => exact ⟨a, rfl, hx⟩

theorem installed_of_installs {size : Word} {text : String} {test : List Function → Machine → Bool}
    (hi : installs size text test = true) :
    ∃ fs code program m, parse text = .ok fs ∧ compile text = .ok code ∧
      assemble (render code) = .ok program ∧ (Machine.empty size).install program = .ok m ∧
      test fs m = true := by
  rcases exists_of_any hi with ⟨fs, hp, hi⟩
  rcases exists_of_any hi with ⟨code, hc, hi⟩
  rcases exists_of_any hi with ⟨program, ha, hi⟩
  rcases exists_of_any hi with ⟨m, hm, hi⟩
  exact ⟨fs, code, program, m, hp, hc, ha, hm, hi⟩

end WordMachine.Compiler
