import WordMachine.Proofs.Compiler.Accepted
import WordMachine.Proofs.Compiler.Asserting
import WordMachine.Proofs.Compiler.Walks

/-!
# Register discipline

Compiled code keeps no value in a register while a function is called. Every part of a function starts
with nothing known of the registers, and the code of an expression ends with its register written. What
it needs of other values lies on the stack.
-/

namespace WordMachine.Compiler

open Assembly Source

/-! ### Single lines -/

theorem usable_of_general {r : Register} (h : r.General) : Usable r := .inl h.2

section

variable {rs : List Register} {b : Bool} {r a c : Register} {n : Nat}

theorem admitted_combine {line : Register → Register → Line} {g : Word → Word → Word}
    (rs' : List Register) (h : Machine.Combines line g ∨ Machine.Divides line g) (ha : Usable a)
    (hc : Usable c) (hra : a ≠ .stack → a ∈ rs) (hrc : c ≠ .stack → c ∈ rs)
    (hrs : ∀ r ∈ rs', r = a ∨ r ∈ rs) : Admitted ⟨rs, b⟩ (line a c) ⟨rs', false⟩ := by
  obtain h | h := h <;> cases h
  all_goals
    refine .plain rfl (by simp) ?_ ?_ (by simpa [Instruction.written, Operands.first?] using hrs)
    · simp [Instruction.registers, Operands.first?, Operands.second?, ha, hc]
    · simpa [Instruction.reads, Operands.first?, Operands.second?] using ⟨hra, hrc⟩

theorem admitted_transfer {line : Register → Register → Line} (rs' : List Register)
    (h : line = Code.mov ∨ line = Code.load) (ha : Usable a) (hc : Usable c)
    (hrc : c ≠ .stack → c ∈ rs) (hrs : ∀ r ∈ rs', r = a ∨ r ∈ rs) : Admitted ⟨rs, b⟩ (line a c) ⟨rs', false⟩ := by
  obtain rfl | rfl := h
  all_goals
    refine .plain rfl (by simp) ?_ ?_ (by simpa [Instruction.written, Operands.first?] using hrs)
    · simp [Instruction.registers, Operands.first?, Operands.second?, ha, hc]
    · simpa [Instruction.reads, Operands.second?] using hrc

theorem admitted_convert {line : Register → Line} {g : Word → Word} (h : Machine.Converts line g)
    (hr : Usable r) : Admitted ⟨[r], b⟩ (line r) ⟨[r], false⟩ := by
  cases h
  all_goals
    refine .plain rfl (by simp) ?_ ?_ (by simp)
    · simp [Instruction.registers, Operands.first?, Operands.second?, hr]
    · simp [Instruction.reads, Operands.first?]

theorem admitted_set (rs' : List Register) (hr : Usable r) (hrs : ∀ q ∈ rs', q = r ∨ q ∈ rs) :
    Admitted ⟨rs, b⟩ (Code.set r n) ⟨rs', false⟩ := by
  refine .plain rfl (by simp) ?_ (by simp [Instruction.reads]) ?_
  · simp [Instruction.registers, Operands.first?, Operands.second?, hr]
  · simpa [Instruction.written, Operands.first?] using hrs

theorem admitted_push (hr : Usable r) : Admitted ⟨[r], b⟩ (Code.push r) .nothing := by
  refine .plain rfl (by simp) ?_ (by simp [Instruction.reads, Operands.first?]) (by simp)
  simp [Instruction.registers, Operands.first?, Operands.second?, hr]

theorem admitted_pop (rs' : List Register) (hr : Usable r) (hrs : ∀ q ∈ rs', q = r ∨ q ∈ rs) :
    Admitted ⟨rs, b⟩ (Code.pop r) ⟨rs', false⟩ := by
  refine .plain rfl (by simp) ?_ (by simp [Instruction.reads]) fun q hq => ?_
  · simp [Instruction.registers, Operands.first?, Operands.second?, hr]
  · exact (hrs q hq).imp_left fun h => by simp [Instruction.written, Operands.first?, h]

theorem admitted_store (ha : Usable a) (hc : Usable c) (hra : a ∈ rs) (hrc : c ∈ rs) :
    Admitted ⟨rs, b⟩ (Code.store a c) .nothing := by
  refine .plain rfl (by simp) ?_ ?_ (by simp)
  · simp [Instruction.registers, Operands.first?, Operands.second?, ha, hc]
  · simp [Instruction.reads, Operands.first?, Operands.second?, hra, hrc]

theorem admitted_ret : Admitted ⟨rs, b⟩ Code.ret .nothing :=
  .plain rfl (by simp) (by simp [Instruction.registers, Operands.first?, Operands.second?])
    (by simp [Instruction.reads]) (by simp)

/-! ### Fragments -/

theorem Reads.single {line : Line} {k k₁ : Facts} (h : Admitted k line k₁) : Reads k [line] k₁ :=
  .cons h .nil

theorem usable_stack : Usable .stack := .inr rfl

theorem usable_result : Usable .result := by decide

theorem reads_truthCode {jump : Label → Line} {c : Flags → Bool} (hc : Machine.Branches jump c)
    (hr : Usable r) (id : Nat) : Reads ⟨rs, b⟩ (truthCode jump r id) ⟨[r], false⟩ := by
  have hjump : jumpTarget? (jump (.truth id)) = some (Label.truth id).text := by cases hc <;> rfl
  exact .cons (admitted_set [r] hr (by simp)) (.cons (.jump hjump)
    (.cons (admitted_combine _ (.inl .xor) hr hr (by simp) (by simp) (by simp)) (.single .truth)))

/-- The operands are in two registers, and the combination in the first one. -/
theorem reads_combination (op : BinaryOp) (hr : Usable r) (ha : Usable a) (id : Nat) :
    Reads ⟨[a, r], false⟩ (combination op r a id) ⟨[r], false⟩ := by
  cases op with
  | equal =>
    exact .cons (admitted_combine [a, r] (.inl .xor) ha hr (by simp) (by simp) (by simp))
      (reads_truthCode .jiz hr id)
  | less =>
    exact .cons (admitted_combine [a, r] (.inl .sub) hr ha (by simp) (by simp) (by simp))
      (reads_truthCode .jis hr id)
  | greater =>
    exact .cons (admitted_combine [a, r] (.inl .sub) ha hr (by simp) (by simp) (by simp))
      (reads_truthCode .jis hr id)
  | add => exact .single (admitted_combine _ (.inl .add) hr ha (by simp) (by simp) (by simp))
  | subtract => exact .single (admitted_combine _ (.inl .sub) hr ha (by simp) (by simp) (by simp))
  | bitOr => exact .single (admitted_combine _ (.inl .or) hr ha (by simp) (by simp) (by simp))
  | bitXor => exact .single (admitted_combine _ (.inl .xor) hr ha (by simp) (by simp) (by simp))
  | multiply => exact .single (admitted_combine _ (.inl .smul) hr ha (by simp) (by simp) (by simp))
  | divide => exact .single (admitted_combine _ (.inr .sdiv) hr ha (by simp) (by simp) (by simp))
  | remainder => exact .single (admitted_combine _ (.inr .smod) hr ha (by simp) (by simp) (by simp))
  | bitAnd => exact .single (admitted_combine _ (.inl .and) hr ha (by simp) (by simp) (by simp))

theorem reads_addressAt (n : Nat) (hr : Usable r) : Reads .nothing (addressAt n r) ⟨[r], false⟩ := by
  unfold addressAt
  split
  · exact .single (admitted_transfer _ (.inl rfl) hr usable_stack (by simp) (by simp))
  · exact .cons (admitted_set [r] hr (by simp))
      (.single (admitted_combine _ (.inl .add) hr usable_stack (by simp) (by simp) (by simp)))

theorem reads_valueAt (n : Nat) (hr : Usable r) : Reads .nothing (valueAt n r) ⟨[r], false⟩ := by
  unfold valueAt
  split
  · exact .single (admitted_transfer _ (.inr rfl) hr usable_stack (by simp) (by simp))
  · exact (reads_addressAt n hr).append (.single (admitted_transfer _ (.inr rfl) hr hr (by simp) (by simp)))

theorem reads_release (n : Nat) (ha : Usable a) : Reads ⟨rs, b⟩ (Code.release a n) ⟨rs, false⟩ := by
  unfold Code.release
  split
  · have hk : Facts.Among ⟨rs, false⟩ ⟨rs, b⟩ := ⟨fun _ h => h, by simp⟩
    exact .forget hk .nil
  · exact .cons (admitted_set (a :: rs) ha (by simp))
      (.single (admitted_combine _ (.inl .add) usable_stack ha (by simp) (by simp)
        fun r hr => .inr (List.mem_cons_of_mem a hr)))

theorem reads_reserve (n : Nat) (ha : Usable a) : Reads .nothing (Code.reserve a n) .nothing := by
  unfold Code.reserve
  split
  · exact .nil
  · exact .cons (admitted_set [a] ha (by simp))
      (.single (admitted_combine _ (.inl .sub) usable_stack ha (by simp) (by simp) (by simp)))

theorem reads_test (hr : Usable r) (l : Label) : Reads ⟨[r], false⟩ [Code.test r, Code.jiz l] .nothing :=
  .cons (admitted_combine [] (.inl .and) hr hr (by simp) (by simp) (by simp)) (.single (.jump rfl))

end

/-! ### All parts -/

/-- The code of a part reads nothing that was known before it, and a value or an address is in its
register after it. -/
def Part.ReadsNothing (code : Code) : Part → Prop
  | .value _ out | .place _ out =>
    (∀ r, out = some r → r.General) → Reads .nothing code ⟨out.toList, false⟩
  | .arguments _ r => r.General → Reads .nothing code .nothing
  | .statement _ | .block _ => Reads .nothing code .nothing

theorem reads_of_emits {l : Option Loop} {f : Frame} {part : Part} {n n₁ : Nat} {code : Code}
    (hE : Emits l f part n code n₁) : part.ReadsNothing code := by
  induction hE with
  | @int l f n v out =>
    intro h
    cases out with
    | none => exact .nil
    | some r => exact .single (admitted_set _ (usable_of_general (h r rfl)) (by simp))
  | unusedName | unusedPlace | noArguments => exact fun _ => .nil
  | nil => exact .nil
  | name hk => exact fun h => reads_valueAt _ (usable_of_general (h _ rfl))
  | namePlace hk => exact fun h => reads_addressAt _ (usable_of_general (h _ rfl))
  | unusedBinary hr hl ihr ihl =>
    exact fun h => (ihr h).append (ihl h)
  | @binary l f n n₁ n₂ op left right r first second hr hl ihr ihl =>
    intro h
    have hu := usable_of_general (h r rfl)
    have ha := usable_of_general r.general_adjacent
    exact ((((ihr h).append (.single (admitted_push hu))).append (ihl h)).append
      (.single (admitted_pop _ ha (by simp)))).append (reads_combination op hu ha _)
  | addressOf h ih | unusedNot h ih | pointer h ih => exact ih
  | @negate l f n n₁ e out code h ih =>
    intro ho
    cases out with
    | none => exact (ih ho).append .nil
    | some r => exact (ih ho).append (.single (admitted_convert .neg (usable_of_general (ho r rfl))))
  | @bitNot l f n n₁ e out code h ih =>
    intro ho
    cases out with
    | none => exact (ih ho).append .nil
    | some r => exact (ih ho).append (.single (admitted_convert .not (usable_of_general (ho r rfl))))
  | @dereference l f n n₁ e out code h ih =>
    intro ho
    cases out with
    | none => exact (ih ho).append .nil
    | some r =>
      have hu := usable_of_general (ho r rfl)
      exact (ih ho).append (.single (admitted_transfer _ (.inr rfl) hu hu (by simp) (by simp)))
  | @logicalNot l f n n₁ e r code h ih =>
    intro ho
    have hu := usable_of_general (ho r rfl)
    exact ((ih ho).append (.single (admitted_combine [r] (.inl .and) hu hu (by simp) (by simp)
      (by simp)))).append (reads_truthCode .jiz hu _)
  | @call l f n n₁ callee es out code h ih =>
    intro ho
    have hcall := (ih (Register.general_adjacent _)).append (.single (.call (k := .nothing)
      (l := .function ⟨callee, es.length⟩)))
    cases out with
    | none => exact (hcall.append .nil).append (reads_release _ usable_result)
    | some r =>
      exact (hcall.append (.single (.take (usable_of_general (ho r rfl))))).append
        (reads_release _ usable_result)
  | @argument l f n n₁ n₂ e es r first rest h hs ih ihs =>
    intro hr
    have hout : ∀ q, some r = some q → q.General := by simpa using hr
    exact ((ih hout).append (.single (admitted_push (usable_of_general hr)))).append (ihs hr)
  | ifOnly he hs ihe ihs =>
    exact (((ihe (by decide)).append (reads_test (by decide) _)).append ihs).append
      (.single .label)
  | ifElse he hs ht ihe ihs iht =>
    exact (((((ihe (by decide)).append (reads_test (by decide) _)).append ihs).append
      (.cons (.jump rfl) (.single .label))).append iht).append (.single .label)
  | whileDo he hs ihe ihs =>
    exact ((((Reads.single .label).append (ihe (by decide))).append
      (reads_test (by decide) _)).append ihs).append (.cons (.jump rfl) (.single .label))
  | @forDo l f n n₁ n₂ n₃ n₄ n₅ counter start condition step ss place first test inner last
      hp hs hc hb ht ihp ihs ihc ihb iht =>
    have hv : Usable countValue := by decide
    have ha : Usable countAddress := by decide
    have hs : Usable countScratch := by decide
    have hstart := (((ihp (by decide)).append (.single (admitted_push ha))).append (ihs (by decide))).append
      (.cons (admitted_transfer [countAddress, countValue] (.inr rfl) ha usable_stack (by simp)
        (by simp)) (.single (admitted_store ha hv (by simp) (by simp))))
    have hlabel : ∀ l : Label, Reads .nothing [Code.label l] .nothing := fun _ => .single .label
    have hloop := (((hstart.append (hlabel (.count n))).append
      (ihc (by decide))).append (reads_test hv (.endCount n))).append ihb
    -- the step is in its register until it has been added, and the address is taken off the stack again
    have hnext : Reads ⟨[countValue], false⟩ [Code.load countAddress .stack,
        Code.load countScratch countAddress, Code.add countScratch countValue,
        Code.store countAddress countScratch, Code.jmp (.count n)] .nothing :=
      .cons (admitted_transfer [countAddress, countValue] (.inr rfl) ha usable_stack (by simp) (by simp))
        (.cons (admitted_transfer [countScratch, countAddress, countValue] (.inr rfl) hs ha (by simp)
          (by simp))
        (.cons (admitted_combine [countScratch, countAddress] (.inl .add) hs hv (by simp) (by simp)
          (by simp))
        (.cons (admitted_store ha hs (by simp) (by simp)) (.single (.jump rfl)))))
    have hstep := ((hloop.append (hlabel (.nextCount n))).append (iht (by decide))).append hnext
    exact hstep.append (.cons .label (.single (admitted_pop _ usable_result (by simp))))
  | retNothing => exact (reads_release _ usable_result).append (.single admitted_ret)
  | ret h ih =>
    have hv : Usable returnValue := by decide
    exact ((ih (by decide)).append (reads_release _ usable_result)).append
      (.cons (admitted_transfer [] (.inl rfl) usable_result hv (by simp) (by simp))
        (.single admitted_ret))
  | breakLoop | continueLoop => exact .single (.jump rfl)
  | assign hp he ihp ihe =>
    have hv : Usable assignValue := by decide
    exact (((ihp (by decide)).append (.single (admitted_push hv))).append (ihe (by decide))).append
      (.cons (admitted_pop [.result, assignValue] usable_result (by simp))
        (.single (admitted_store usable_result hv (by simp) (by simp))))
  | exec h ih => exact ih (by simp)
  | cons hs hss ihs ihss => exact ihs.append ihss

/-! ### Functions -/

theorem reads_of_emitsFunction {f : Function} {n n₁ : Nat} {code : Code}
    (h : EmitsFunction f n code n₁) : Reads .nothing code .nothing := by
  obtain ⟨body, hE, rfl⟩ := h
  have hs : Usable frameSize := by decide
  have hentry : Reads .nothing [.blank, Code.label (.function f.signature)] .nothing :=
    .cons .blank (.single .label)
  exact (((hentry.append (reads_reserve _ hs)).append (reads_of_emits hE)).append
    (reads_release _ hs)).append (.single admitted_ret)

theorem reads_of_builtin {lines : Code} (h : lines ∈ builtinCodes) : Reads .nothing lines .nothing := by
  simp only [builtinCodes, List.mem_cons, List.not_mem_nil, or_false] at h
  obtain rfl | rfl := h
  · have houtput : Admitted ⟨[.result], false⟩ (Code.output .result) .nothing :=
      .plain rfl (by simp) (by decide) (by decide) (by simp)
    exact .cons .label (.cons (admitted_set [.result] usable_result (by simp))
      (.cons (admitted_combine [.result] (.inl .add) usable_result usable_stack (by simp) (by simp)
        (by simp))
      (.cons (admitted_transfer [.result] (.inr rfl) usable_result usable_result (by simp) (by simp))
      (.cons houtput (.single admitted_ret)))))
  · have hinput : Admitted .nothing (Code.input .result) .nothing :=
      .plain rfl (by simp) (by decide) (by decide) (by simp)
    exact .cons .label (.cons hinput (.single admitted_ret))

/-! ### Programs -/

/-- A line that names no registers but `R0` to `R250` and the stack pointer. -/
def Named (line : Line) : Prop :=
  ∀ x : Instruction Value, line = .instruction x → ∀ r ∈ x.registers, Usable r

/-- The lines of a function that control enters at the first one and leaves by returning: every jump
leads to a label among them, and the last line returns. -/
structure Enclosed (code : Code) : Prop where
  jumps : ∀ x : Instruction Value, .instruction x ∈ code → x.opcode ≠ .call → x.opcode ≠ .jmpr ∧
    ∀ t, x.operands.target? = some t → ∃ name, t = .label name ∧ .label name ∈ code
  last : code.getLast? = some Code.ret

section

variable {k k₁ : Facts} {line : Line} {code lines : Code} {fs : List Function} {codes : List Code}
  {text : String}

theorem Reads.admitted (h : Reads k code k₁) (hl : line ∈ code) : ∃ k k₁, Admitted k line k₁ := by
  induction h with
  | nil => cases hl
  | forget _ _ ih => exact ih hl
  | cons ha _ ih =>
    cases hl with
    | head => exact ⟨_, _, ha⟩
    | tail _ hl => exact ih hl

theorem Admitted.named (h : Admitted k line k₁) : Named line := by
  rintro x rfl r hr
  generalize hline : Line.instruction x = line at h
  cases h with
  | blank | label | truth => cases hline
  | call =>
    cases hline
    cases hr
  | take hu =>
    cases hline
    obtain rfl | rfl : r = _ ∨ r = .result := by
      simpa [Instruction.registers, Operands.first?, Operands.second?] using hr
    · exact hu
    · exact usable_result
  | jump hj =>
    subst hline
    rw [(jumps_of_jumpTarget? hj).registers] at hr
    cases hr
  | plain _ _ hu =>
    cases hline
    exact hu r hr

theorem reads_of_part (h : Compiled fs codes code) (hl : lines ∈ builtinCodes ++ codes) :
    Reads .nothing lines .nothing ∧ Arranged lines := by
  cases List.mem_append.1 hl with
  | inl hb =>
    refine ⟨reads_of_builtin hb, ?_⟩
    simp only [builtinCodes, List.mem_cons, List.not_mem_nil, or_false] at hb
    obtain rfl | rfl := hb <;> exact arranged_of_references rfl
  | inr hm =>
    obtain ⟨f, _, n, n₁, hf⟩ := h.emits.exists_get hm
    have he := emitsFunction_of_function hf
    exact ⟨reads_of_emitsFunction he, arranged_of_emitsFunction he⟩

theorem enclosed_of_part (h : Compiled fs codes code) (hl : lines ∈ builtinCodes ++ codes) :
    Enclosed lines := by
  obtain ⟨_, _, hclosed⟩ := closed_of_part h hl
  refine ⟨fun x hx hcall => ?_, hclosed.last⟩
  obtain ⟨_, _, ha⟩ := (reads_of_part h hl).1.admitted hx
  refine ⟨(ha.target hcall).1, fun t ht => ?_⟩
  obtain ⟨name, rfl, hj⟩ := (ha.target hcall).2 t ht
  exact ⟨name, rfl, hclosed.targets _ hx name hj⟩

theorem Compiled.sublist (h : Compiled fs codes code) (hl : lines ∈ builtinCodes ++ codes) :
    lines.Sublist code := by
  rw [h.code_eq]
  exact (List.sublist_append_of_sublist_right (List.sublist_flatten_of_mem hl)).trans
    (List.sublist_append_left ..)

theorem Compiled.named (h : Compiled fs codes code) (hl : line ∈ code) : Named line := by
  obtain rfl | rfl | rfl | ⟨lines, hlines, hm⟩ := h.cases hl
  · exact (Admitted.call (k := .nothing) (l := .function .main)).named
  · rintro x ⟨⟩ r hr
    cases hr
  · rintro x ⟨⟩
  · obtain ⟨_, _, ha⟩ := (reads_of_part h hlines).1.admitted hm
    exact ha.named

/-- The registers of a compiled program. Its instructions name `R0` to `R250` and the stack pointer
alone, and its bodies are generated without breaking an assertion: expressions are evaluated into `R1` to
`R250`, and operators combine two different registers. Each function's labels are its own, and on every
way through it what an instruction reads from a register other than the stack pointer was written since
the last call, but for the result that is moved out just after one. -/
theorem registers_disciplined (hp : parse text = .ok fs) (hc : compile text = .ok code) :
    (∀ line ∈ code, Named line) ∧
    (∀ f ∈ fs, ∀ alarm, Asserted.block alarm f.body = block f.body) ∧
    (declarations code).Nodup ∧
    ∃ codes : List Code, code = bootstrap ++ (builtinCodes ++ codes).flatten ++
        [Code.label .programEnd] ∧
      codes.length = fs.length ∧
      (∀ (i : Nat) f lines, fs[i]? = some f → codes[i]? = some lines →
        ∃ n n₁, function f n = .ok (lines, n₁)) ∧
      ∀ lines ∈ builtinCodes ++ codes, Enclosed lines ∧ ReadsFresh lines := by
  obtain ⟨codes, h⟩ := compiled_of_compile hp hc
  have hnodup := nodup_declarations_of_compile hc h
  refine ⟨fun line hl => h.named hl, fun f _ alarm => asserted_block alarm f.body, hnodup, codes,
    h.code_eq, h.emits.length_eq, fun i f lines => h.emits.get, fun lines hl => ?_⟩
  obtain ⟨hreads, harranged⟩ := reads_of_part h hl
  have hown : (declarations lines).Nodup := hnodup.sublist ((h.sublist hl).filterMap _)
  exact ⟨enclosed_of_part h hl, readsFresh_of_reads hreads harranged hown⟩

end

/-- A program that calls a function inside an operand, and compares in a loop. -/
theorem registers_disciplined_nested_call : ∃ fs code,
    parse "DEF f(x) RETURN x; END; DEF main() WHILE f(1) + f(2) < 3 DO printchar(f(65)); END; END;" =
      .ok fs ∧
    compile "DEF f(x) RETURN x; END; DEF main() WHILE f(1) + f(2) < 3 DO printchar(f(65)); END; END;" =
      .ok code ∧
    (∀ line ∈ code, Named line) ∧
    (∀ f ∈ fs, ∀ alarm, Asserted.block alarm f.body = block f.body) ∧
    (declarations code).Nodup ∧
    ∃ codes : List Code, code = bootstrap ++ (builtinCodes ++ codes).flatten ++
        [Code.label .programEnd] ∧
      codes.length = fs.length ∧
      (∀ (i : Nat) f lines, fs[i]? = some f → codes[i]? = some lines →
        ∃ n n₁, function f n = .ok (lines, n₁)) ∧
      ∀ lines ∈ builtinCodes ++ codes, Enclosed lines ∧ ReadsFresh lines := by
  have hok : (compile
      "DEF f(x) RETURN x; END; DEF main() WHILE f(1) + f(2) < 3 DO printchar(f(65)); END; END;"
      ).toOption.isSome = true := by decide +kernel
  cases hc : compile
      "DEF f(x) RETURN x; END; DEF main() WHILE f(1) + f(2) < 3 DO printchar(f(65)); END; END;" with
  | error e =>
    rw [hc] at hok
    cases hok
  | ok code =>
    obtain ⟨fs, _, hp, _⟩ := compile_eq_ok hc
    exact ⟨fs, code, hp, rfl, registers_disciplined hp hc⟩

end WordMachine.Compiler
