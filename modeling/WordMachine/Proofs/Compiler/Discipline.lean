import WordMachine.Proofs.Compiler.Jumps
import WordMachine.Proofs.Compiler.Typing

/-!
# Stack discipline

The lines of every function of a compiled program have a stack depth each, in words pushed since the
function was entered, with which all ways through the function agree, and a function returns at depth
zero.
-/

namespace WordMachine.Compiler

open Assembly Source

/-! ### Functions of compiled programs -/

def bootstrap : Code := [Code.call (.function .main), Code.jmp .programEnd]

def printcharCode : Code :=
  [Code.label (.function .printchar), Code.set .result 4, Code.add .result .stack,
    Code.load .result .result, Code.output .result, Code.ret]

def readcharCode : Code := [Code.label (.function .readchar), Code.input .result, Code.ret]

/-- The code of the functions that every program has. -/
def builtinCodes : List Code := [printcharCode, readcharCode]

theorem preamble_eq : preamble = bootstrap ++ builtinCodes.flatten := rfl

/-- The code of a function: its shapes agree from the entry on, its jumps stay inside, and it ends by
returning. -/
structure Closed (s : Setting) (shapeOf : Nat → List Content) (code : Code) : Prop where
  typed : ∃ σ, Typed s shapeOf ⟨[], none⟩ code σ
  targets : Targets (fun name => Line.label name ∈ code) code
  last : code.getLast? = some Code.ret

theorem closed_of_emitsFunction {s : Setting} {f : Function} {n n₁ : Nat} {code : Code}
    (h : EmitsFunction f n code n₁) (hl : f.locals.length = s.locals)
    (ha : f.parameters.length = s.arity) (hd : s.safe → Direct (Stmt.allTargets f.body)) :
    ∃ shapeOf, Closed s shapeOf code := by
  obtain ⟨body, hE, rfl⟩ := h
  have hw : (List.replicate s.locals Content.any).length =
      (⟨f.parameters, f.locals, 0⟩ : Frame).depth := by
    rw [List.length_replicate, Frame.depth, hl]
    rfl
  obtain ⟨shapeOf, hkeeps⟩ := (fits_of_emits hE hw ⟨hl, ha⟩).exists
  have hbody := hkeeps hd fun i hi => by cases hi
  refine ⟨shapeOf, ⟨⟨[], none⟩, ?_⟩, ?_, ?_⟩
  · have hentry : Typed s shapeOf ⟨[], none⟩ [.blank, Code.label (.function f.signature)] ⟨[], none⟩ :=
      .cons .blank (.single .entry)
    have hrelease : Typed s shapeOf ⟨List.replicate s.locals .any ++ [], none⟩
        (Code.release frameSize (List.replicate s.locals Content.any).length) ⟨[], none⟩ :=
      typed_release _ (by decide)
    rw [List.append_nil, List.length_replicate] at hrelease
    rw [hl]
    exact (((hentry.append (typed_reserve (by decide))).append hbody).append hrelease).append
      (.single .ret)
  · have hentry : Targets (Known none [.blank, Code.label (.function f.signature)])
        [.blank, Code.label (.function f.signature)] := .cons rfl (.cons rfl targets_nil)
    refine ((((hentry.both (targets_reserve _ _)).both (targets_of_emits hE)).both
      (targets_release _ _)).both (.cons rfl targets_nil)).mono fun name hn => ?_
    cases hn with
    | inl hm => exact hm
    | inr hi =>
      obtain ⟨i, hi, _⟩ := hi
      cases hi
  · exact List.getLast?_concat

theorem closed_printchar (safe : Prop) (shapeOf : Nat → List Content) :
    Closed ⟨0, 1, safe⟩ shapeOf printcharCode where
  typed := by
    have hr : Plain .result := by decide
    exact ⟨⟨[], none⟩, .cons .entry (.cons (allowed_quiet hr rfl rfl) (.cons (allowed_quiet hr rfl rfl)
      (.cons (allowed_quiet hr rfl rfl)
        (.cons (.quiet ⟨by decide, by decide, rfl⟩) (.single .ret)))))⟩
  targets := .cons rfl (.cons rfl (.cons rfl (.cons rfl (.cons rfl (.cons rfl targets_nil)))))
  last := rfl

theorem closed_readchar (safe : Prop) (shapeOf : Nat → List Content) :
    Closed ⟨0, 0, safe⟩ shapeOf readcharCode where
  typed := by
    have hr : Plain .result := by decide
    exact ⟨⟨[], none⟩, .cons .entry (.cons (allowed_quiet hr rfl rfl) (.single .ret))⟩
  targets := .cons rfl (.cons rfl (.cons rfl targets_nil))
  last := rfl

/-! ### Depths -/

def Meets (code : Code) (depth : Nat → Nat) (name : String) (d : Nat) : Prop :=
  (∃ j : Nat, code[j]? = some (.label name)) ∧ ∀ j : Nat, code[j]? = some (.label name) → depth j = d

/-- What the line at a place makes of the depth there: what it pushes or pops, that the next line
continues at the depth it leaves, and that a label it may jump to stands at that depth. The stack
pointer is moved by a number of words only right after a register was set to it, and a function
returns at depth zero. No other instruction changes the stack pointer. -/
inductive Balanced (code : Code) (depth : Nat → Nat) : Nat → Line → Prop
  | push {i r} : depth (i + 1) = depth i + 1 → Balanced code depth i (Code.push r)
  | pop {i r} : r ≠ .stack → depth i = depth (i + 1) + 1 → Balanced code depth i (Code.pop r)
  | reserve {i r n} : code[i]? = some (Code.set r (4 * n)) → depth (i + 2) = depth (i + 1) + n →
      Balanced code depth (i + 1) (Code.sub .stack r)
  | release {i r n} : code[i]? = some (Code.set r (4 * n)) → depth (i + 1) = depth (i + 2) + n →
      Balanced code depth (i + 1) (Code.add .stack r)
  | call {i g} : depth (i + 1) = depth i → Balanced code depth i (Code.call (.function g))
  | jump {i} {l : Label} : Meets code depth l.text (depth i) → Balanced code depth i (Code.jmp l)
  | branch {i line c} {l : Label} : Machine.Branches line c → Meets code depth l.text (depth i) →
      depth (i + 1) = depth i → Balanced code depth i (line l)
  | ret {i} : depth i = 0 → Balanced code depth i Code.ret
  | mark {i line} : (∀ x, line ≠ .instruction x) → depth (i + 1) = depth i →
      Balanced code depth i line
  | other {i x} : .stack ∉ x.written → .instruction ∉ x.written → depth (i + 1) = depth i →
      Balanced code depth i (.instruction x)

/-- The lines of a function have depths that agree on all ways through it from depth zero on. -/
def Disciplined (code : Code) : Prop :=
  ∃ depth : Nat → Nat, depth 0 = 0 ∧ ∀ i line, code[i]? = some line → Balanced code depth i line

variable {s : Setting} {shapeOf : Nat → List Content} {σ σ₁ : Shape} {line : Line} {code : Code}

theorem Typed.shapes (h : Typed s shapeOf σ code σ₁) : ∃ shapes : Nat → Shape, shapes 0 = σ ∧
    ∀ i line, code[i]? = some line → Allowed s shapeOf (shapes i) line (shapes (i + 1)) := by
  induction h with
  | @nil σ => exact ⟨fun _ => σ, rfl, fun i line hi => by simp at hi⟩
  | @forget w k => exact ⟨fun _ => ⟨w, k⟩, rfl, fun i line hi => by simp at hi⟩
  | @cons σ σ₁ σ₂ line rest ha _ ih =>
    obtain ⟨shapes, h0, hs⟩ := ih
    refine ⟨fun i => i.casesOn σ shapes, rfl, ?_⟩
    intro i l hi
    cases i with
    | zero =>
      cases hi
      rw [← h0] at ha
      exact ha
    | succ i => exact hs i l hi

theorem Allowed.eq_set {w : List Content} {r : Register} {n : Nat}
    (h : Allowed s shapeOf σ line ⟨w, some (r, .number n)⟩) : line = Code.set r n := by
  cases h
  rfl

theorem Allowed.of_label {l : Label} {i : Nat} (hi : l.id? = some i)
    (h : Allowed s shapeOf σ (.label l.text) σ₁) :
    σ.words = shapeOf i ∧ σ₁ = ⟨shapeOf i, none⟩ := by
  generalize hline : Line.label l.text = line at h
  cases h with
  | @label l' j k hj =>
    have hl := Label.eq_of_text hi (Line.label.inj hline).symm
    rw [hl, hi] at hj
    cases hj
    exact ⟨rfl, rfl⟩
  | @entry g k =>
    have hl := Label.eq_of_text hi (Line.label.inj hline).symm
    rw [← hl] at hi
    cases hi
  | branch hb =>
    cases hb <;> cases hline
  | _ => cases hline

theorem balanced_of_written {depth : Nat → Nat} {i : Nat} {x : Instruction Value} {r : Register}
    (hw : x.written = [r]) (hr : r ≠ .stack) (hi : r ≠ .instruction) (hd : depth (i + 1) = depth i) :
    Balanced code depth i (.instruction x) :=
  .other (by simpa [hw] using hr.symm) (by simpa [hw] using hi.symm) hd

theorem Allowed.balanced {depth : Nat → Nat} {i : Nat} (h : Allowed s shapeOf σ line σ₁)
    (hd : depth i = σ.words.length) (hd₁ : depth (i + 1) = σ₁.words.length)
    (hset : ∀ r n, σ.known = some (r, .number n) → ∃ j, i = j + 1 ∧ code[j]? = some (Code.set r n))
    (hmeets : ∀ (l : Label) id, l.id? = some id → jumpTarget? line = some l.text →
      Meets code depth l.text (shapeOf id).length) : Balanced code depth i line := by
  cases h with
  | blank => exact .mark (by simp) (hd₁.trans hd.symm)
  | label => exact .mark (by simp [Code.label]) (hd₁.trans hd.symm)
  | entry => exact .mark (by simp [Code.label]) (hd₁.trans hd.symm)
  | number hr hi =>
    exact balanced_of_written rfl hr hi (hd₁.trans hd.symm)
  | reserve =>
    obtain ⟨j, rfl, hj⟩ := hset _ _ rfl
    refine .reserve hj ?_
    rw [hd₁, hd, List.length_replicate]
    exact (Nat.zero_add _).symm
  | @release top w r =>
    obtain ⟨j, rfl, hj⟩ := hset _ _ rfl
    refine .release hj ?_
    rw [hd, hd₁, List.length_append, Nat.add_comm]
  | top hr hi =>
    exact balanced_of_written rfl hr hi (hd₁.trans hd.symm)
  | address hr hi =>
    exact balanced_of_written rfl hr hi (hd₁.trans hd.symm)
  | push | pushSlot =>
    refine .push ?_
    rw [hd₁, hd]
    rfl
  | pop hr | popSlot hr =>
    refine .pop hr ?_
    rw [hd₁, hd]
    rfl
  | loadSlot hr hi =>
    exact balanced_of_written rfl hr hi (hd₁.trans hd.symm)
  | store => exact .other List.not_mem_nil List.not_mem_nil (hd₁.trans hd.symm)
  | call => exact .call (hd₁.trans hd.symm)
  | jump hi =>
    refine .jump ?_
    rw [hd]
    exact hmeets _ _ hi rfl
  | branch hb hi =>
    refine .branch hb ?_ (hd₁.trans hd.symm)
    rw [hd]
    exact hmeets _ _ hi (by cases hb <;> rfl)
  | ret => exact .ret hd
  | quiet hq | keep hq => exact .other hq.stack hq.instruction (hd₁.trans hd.symm)

/-- The numbers of words of shapes that agree are depths that agree. -/
theorem Closed.disciplined (h : Closed s shapeOf code) : Disciplined code := by
  obtain ⟨σ, ht⟩ := h.typed
  obtain ⟨shapes, h0, hs⟩ := ht.shapes
  refine ⟨fun i => (shapes i).words.length, congrArg (fun σ => σ.words.length) h0, ?_⟩
  intro i line hi
  refine (hs i line hi).balanced rfl rfl ?_ ?_
  · intro r n hk
    cases i with
    | zero =>
      rw [h0] at hk
      cases hk
    | succ j =>
      have hlt := (List.getElem?_eq_some_iff.1 hi).1
      have hj := List.getElem?_eq_getElem (l := code) (i := j) (by omega)
      refine ⟨j, rfl, ?_⟩
      have ha := hs j _ hj
      have hshape : shapes (j + 1) = ⟨(shapes (j + 1)).words, some (r, .number n)⟩ := by rw [← hk]
      rw [hshape] at ha
      rw [hj, ha.eq_set]
  · intro l id hid ht
    have hm := h.targets line (List.mem_of_getElem? hi) _ ht
    refine ⟨List.getElem?_of_mem hm, fun j hj => ?_⟩
    show (shapes j).words.length = _
    rw [((hs j _ hj).of_label hid).1]

/-! ### Programs -/

theorem EmitsFunctions.length_eq {fs : List Function} {n : Nat} {codes : List Code}
    (h : EmitsFunctions fs n codes) : codes.length = fs.length := by
  induction h with
  | nil => rfl
  | cons _ _ ih => simp [ih]

theorem EmitsFunctions.get {fs : List Function} {n : Nat} {codes : List Code}
    (h : EmitsFunctions fs n codes) {i : Nat} {f : Function} {lines : Code} (hf : fs[i]? = some f)
    (hl : codes[i]? = some lines) : ∃ n n₁, function f n = .ok (lines, n₁) := by
  induction h generalizing i with
  | nil => cases hf
  | @cons f' fs n n₁ code codes hc _ ih =>
    cases i with
    | zero =>
      cases hf
      cases hl
      exact ⟨n, n₁, hc⟩
    | succ i => exact ih hf hl

theorem disciplined_of_function {f : Function} {n n₁ : Nat} {lines : Code}
    (h : function f n = .ok (lines, n₁)) : Disciplined lines := by
  obtain ⟨shapeOf, hc⟩ := closed_of_emitsFunction (s := ⟨f.locals.length, f.parameters.length, False⟩)
    (emitsFunction_of_function h) rfl rfl False.elim
  exact hc.disciplined

theorem disciplined_of_builtin {lines : Code} (h : lines ∈ builtinCodes) : Disciplined lines := by
  simp only [builtinCodes, List.mem_cons, List.not_mem_nil, or_false] at h
  obtain rfl | rfl := h
  · exact (closed_printchar False fun _ => []).disciplined
  · exact (closed_readchar False fun _ => []).disciplined

/-- A compiled program is the call of `main`, the code of its functions and the end. The code of each
function has a stack depth for every line. -/
theorem functions_disciplined {text : String} {fs : List Function} {code : Code}
    (hp : parse text = .ok fs) (hc : compile text = .ok code) :
    ∃ codes : List Code, code = bootstrap ++ (builtinCodes ++ codes).flatten ++
        [Code.label .programEnd] ∧
      codes.length = fs.length ∧
      (∀ (i : Nat) f lines, fs[i]? = some f → codes[i]? = some lines →
        ∃ n n₁, function f n = .ok (lines, n₁)) ∧
      ∀ lines ∈ builtinCodes ++ codes, Disciplined lines := by
  obtain ⟨fs', codes, hp', _, he, rfl⟩ := compile_eq_ok hc
  rw [hp] at hp'
  cases hp'
  refine ⟨codes, ?_, he.length_eq, fun i f lines => he.get, ?_⟩
  · rw [preamble_eq, List.flatten_append, List.append_assoc bootstrap]
  · intro lines hl
    cases List.mem_append.1 hl with
    | inl hb => exact disciplined_of_builtin hb
    | inr hm =>
      obtain ⟨i, hi⟩ := List.getElem?_of_mem hm
      have hlt : i < fs.length := by
        rw [← he.length_eq]
        exact (List.getElem?_eq_some_iff.1 hi).1
      obtain ⟨n, n₁, hf⟩ := he.get (List.getElem?_eq_getElem hlt) hi
      exact disciplined_of_function hf

/-- A program that returns from inside a loop, with the address of the counter on the stack. -/
theorem functions_disciplined_return_in_loop : ∃ fs code,
    parse "DEF main() FOR i := 0, 3 DO IF i = 1 THEN RETURN i; END; END; END;" = .ok fs ∧
    compile "DEF main() FOR i := 0, 3 DO IF i = 1 THEN RETURN i; END; END; END;" = .ok code ∧
    ∃ codes : List Code, code = bootstrap ++ (builtinCodes ++ codes).flatten ++
        [Code.label .programEnd] ∧
      codes.length = fs.length ∧
      (∀ (i : Nat) f lines, fs[i]? = some f → codes[i]? = some lines →
        ∃ n n₁, function f n = .ok (lines, n₁)) ∧
      ∀ lines ∈ builtinCodes ++ codes, Disciplined lines := by
  have hok : (compile "DEF main() FOR i := 0, 3 DO IF i = 1 THEN RETURN i; END; END; END;").toOption.isSome =
      true := by decide +kernel
  cases hc : compile "DEF main() FOR i := 0, 3 DO IF i = 1 THEN RETURN i; END; END; END;" with
  | error e =>
    rw [hc] at hok
    cases hok
  | ok code =>
    obtain ⟨fs, _, hp, _⟩ := compile_eq_ok hc
    exact ⟨fs, code, hp, rfl, functions_disciplined hp hc⟩

end WordMachine.Compiler
