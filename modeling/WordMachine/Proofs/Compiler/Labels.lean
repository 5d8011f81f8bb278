import WordMachine.Proofs.Compiler.Lines
import WordMachine.Proofs.Assembly.Layout

/-!
# Labels of compiled programs

Labels have different texts, and the numbers of the labels in a part are used in no other. So a program
declares every label once, whatever the names and numbers of parameters of its functions.
-/

namespace WordMachine.Compiler

open Assembly Source

theorem Label.text_inj {l l' : Label} : l.text = l'.text ↔ l = l' := by
  refine ⟨fun h => ?_, congrArg Label.text⟩
  cases hl : l.id? with
  | some i => exact (Label.eq_of_text hl h.symm).symm
  | none =>
    cases hl' : l'.id? with
    | some i => exact Label.eq_of_text hl' h
    | none =>
      have ht := congrArg String.toList h
      cases l <;> cases hl <;> cases l' <;> cases hl'
      case function.refl.function.refl g g' => rw [eq_of_text_function h]
      case programEnd.refl.programEnd.refl => rfl
      all_goals simp [Label.text] at ht

/-! ### How often a label is declared -/

def times (l : Label) (code : Code) : Nat := (declarations code).count l.text

section

variable {l : Label} {a b code : Code} {n n₁ n₂ : Nat}

@[simp] theorem times_append (l : Label) (a b : Code) : times l (a ++ b) = times l a + times l b := by
  rw [times, declarations_append, List.count_append, times, times]

theorem times_eq_zero (h : declarations code = []) : times l code = 0 := by
  rw [times, h, List.count_nil]

theorem times_of_declarations {ls : List Label} (h : declarations code = ls.map Label.text) :
    times l code = ls.count l := by
  rw [times, h]
  clear h
  induction ls with
  | nil => rfl
  | cons l' ls ih =>
    rw [List.map_cons, List.count_cons, List.count_cons, ih]
    simp only [beq_iff_eq, Label.text_inj]

theorem times_label (l l' : Label) : times l [Code.label l'] = [l'].count l :=
  times_of_declarations rfl

theorem times_jump_label (l l' l'' : Label) :
    times l [Code.jmp l', Code.label l''] = [l''].count l :=
  times_label l l''

theorem times_test (l l' : Label) (r : Register) : times l [Code.test r, Code.jiz l'] = 0 := rfl

/-- One for a number from `n` on and before `n₁`, and zero for any other. -/
def within (id? : Option Nat) (n n₁ : Nat) : Nat :=
  if id?.any (fun i => decide (n ≤ i ∧ i < n₁)) then 1 else 0

theorem within_add (id? : Option Nat) (h : n ≤ n₁) (h' : n₁ ≤ n₂) :
    within id? n n₁ + within id? n₁ n₂ = within id? n n₂ := by
  cases id? with
  | none => rfl
  | some i =>
    simp only [within, Option.any_some, decide_eq_true_eq]
    split <;> split <;> split <;> omega

theorem within_le_one (id? : Option Nat) (n n₁ : Nat) : within id? n n₁ ≤ 1 := by
  rw [within]
  split <;> decide

/-- Different labels with one number. -/
theorem count_le_within {own : List Label} (hid : ∀ l ∈ own, l.id? = some n) (hn : own.Nodup) :
    own.count l ≤ within l.id? n (n + 1) := by
  by_cases hm : l ∈ own
  · have hw : within (some n) n (n + 1) = 1 := by simp [within]
    rw [hid l hm, hw]
    exact List.nodup_iff_count.1 hn l
  · rw [List.count_eq_zero.2 hm]
    exact Nat.zero_le _

/-- The label is declared at most once, and only if its number is from `n` on and before `n₁`. -/
structure Numbers (l : Label) (code : Code) (n n₁ : Nat) : Prop where
  le : n ≤ n₁
  times_le : times l code ≤ within l.id? n n₁

theorem Numbers.of_none (h : declarations code = []) : Numbers l code n n :=
  ⟨Nat.le_refl n, by rw [times_eq_zero h]; exact Nat.zero_le _⟩

theorem Numbers.append (ha : Numbers l a n n₁) (hb : Numbers l b n₁ n₂) :
    Numbers l (a ++ b) n n₂ := by
  refine ⟨Nat.le_trans ha.le hb.le, ?_⟩
  rw [times_append, ← within_add l.id? ha.le hb.le]
  exact Nat.add_le_add ha.times_le hb.times_le

theorem Numbers.silent (ha : Numbers l a n n₁) (h : declarations b = []) : Numbers l (a ++ b) n n₁ :=
  ha.append (.of_none h)

theorem Numbers.beside (ha : Numbers l a (n + 1) n₁) (own : List Label)
    (hid : ∀ l ∈ own, l.id? = some n) (hn : own.Nodup) (h : times l b = own.count l + times l a) :
    Numbers l b n n₁ := by
  refine ⟨Nat.le_of_succ_le ha.le, ?_⟩
  rw [h, ← within_add l.id? (Nat.le_succ n) ha.le]
  exact Nat.add_le_add (count_le_within hid hn) ha.times_le

theorem declarations_addressAt (k : Nat) (r : Register) : declarations (addressAt k r) = [] := by
  unfold addressAt
  split <;> rfl

theorem declarations_valueAt (k : Nat) (r : Register) : declarations (valueAt k r) = [] := by
  unfold valueAt
  split
  · rfl
  · rw [declarations_append, declarations_addressAt]
    rfl

theorem declarations_release (r : Register) (k : Nat) : declarations (Code.release r k) = [] := by
  unfold Code.release
  split <;> rfl

theorem declarations_reserve (r : Register) (k : Nat) : declarations (Code.reserve r k) = [] := by
  unfold Code.reserve
  split <;> rfl

theorem numbers_truthCode {jump : Label → Line} {c : Flags → Bool} (hc : Machine.Branches jump c)
    (l : Label) (r : Register) (n : Nat) : Numbers l (truthCode jump r n) n (n + 1) := by
  have hcode : truthCode jump r n =
      [Code.set r 1, jump (.truth n), Code.xor r r] ++ [Code.label (.truth n)] := rfl
  have hjump : declarations [Code.set r 1, jump (.truth n), Code.xor r r] = [] := by
    cases hc <;> rfl
  refine ⟨Nat.le_succ n, ?_⟩
  rw [hcode, times_append, times_eq_zero hjump, times_label, Nat.zero_add]
  exact count_le_within (by simp [Label.id?]) (by simp)

theorem numbers_combination (l : Label) (op : BinaryOp) (r x : Register) (n : Nat) :
    Numbers l (combination op r x n) n (n + labelCount op) := by
  cases op with
  | equal => exact .append (a := [_]) (.of_none rfl) (numbers_truthCode .jiz l r n)
  | less => exact .append (a := [_]) (.of_none rfl) (numbers_truthCode .jis l r n)
  | greater => exact .append (a := [_]) (.of_none rfl) (numbers_truthCode .jis l r n)
  | add | subtract | bitOr | bitXor | multiply | divide | remainder | bitAnd => exact .of_none rfl

/-- The numbers of the labels in the code of a part are those used up by it, and each label is declared
once. -/
theorem numbers_of_emits {i : Option Loop} {f : Frame} {part : Part} (l : Label)
    (hE : Emits i f part n code n₁) : Numbers l code n n₁ := by
  induction hE with
  | @int _ _ _ _ out => cases out <;> exact .of_none rfl
  | unusedName | unusedPlace | noArguments | nil => exact .of_none rfl
  | name hk => exact .of_none (declarations_valueAt _ _)
  | unusedBinary hr hl ihr ihl => exact ihr.append ihl
  | binary hr hl ihr ihl =>
    exact (((ihr.silent rfl).append ihl).silent rfl).append (numbers_combination _ _ _ _ _)
  | addressOf h ih | unusedNot h ih | pointer h ih | exec h ih => exact ih
  | @negate _ _ _ _ _ out _ h ih | @bitNot _ _ _ _ _ out _ h ih
  | @dereference _ _ _ _ _ out _ h ih => exact ih.silent (by cases out <;> rfl)
  | logicalNot h ih => exact (ih.silent rfl).append (numbers_truthCode .jiz _ _ _)
  | @call _ _ _ _ _ _ out _ h ih =>
    exact ((ih.silent rfl).silent (by cases out <;> rfl)).silent (declarations_release _ _)
  | argument h hs ih ihs => exact (ih.silent rfl).append ihs
  | namePlace hk => exact .of_none (declarations_addressAt _ _)
  | @ifOnly _ _ n _ _ _ _ test first he hs ihe ihs =>
    refine (ihe.append ihs).beside [.endIf n] (by simp [Label.id?]) (by simp) ?_
    simp only [times_append, times_test, times_label]
    omega
  | @ifElse _ _ n _ _ _ _ _ _ _ _ _ _ he hs ht ihe ihs iht =>
    refine ((ihe.append ihs).append iht).beside [.otherwise n, .endIf n] (by simp [Label.id?])
      (by simp) ?_
    simp only [times_append, times_test, times_label, times_jump_label, List.count_cons, List.count_nil]
    omega
  | @whileDo _ _ n _ _ _ _ _ _ he hs ihe ihs =>
    refine (ihe.append ihs).beside [.loop n, .endLoop n] (by simp [Label.id?]) (by simp) ?_
    simp only [times_append, times_test, times_label, times_jump_label, List.count_cons, List.count_nil]
    omega
  | @forDo _ _ n _ _ _ _ _ _ _ _ _ _ _ _ _ _ _ hp hs hc hb ht ihp ihs ihc ihb iht =>
    refine ((((ihp.append ihs).append ihc).append ihb).append iht).beside
      [.count n, .nextCount n, .endCount n] (by simp [Label.id?]) (by simp) ?_
    have hend : times l [Code.label (.endCount n), Code.pop .result] =
        times l [Code.label (.endCount n)] := rfl
    simp only [times_append, times_test, hend, times_label, List.count_cons, List.count_nil]
    have hpush : times l [Code.push countAddress] = 0 := rfl
    have hstart : times l [Code.load countAddress .stack, Code.store countAddress countValue] = 0 := rfl
    have hnext : times l [Code.load countAddress .stack, Code.load countScratch countAddress,
      Code.add countScratch countValue, Code.store countAddress countScratch,
      Code.jmp (.count n)] = 0 := rfl
    omega
  | retNothing => exact .of_none (by rw [declarations_append, declarations_release]; rfl)
  | ret h ih => exact (ih.silent (declarations_release _ _)).silent rfl
  | breakLoop | continueLoop => exact .of_none rfl
  | assign hp he ihp ihe => exact ((ihp.silent rfl).append ihe).silent rfl
  | cons hs hss ihs ihss => exact ihs.append ihss

/-! ### Functions and programs -/

theorem times_of_emitsFunction {f : Function} (l : Label) (h : EmitsFunction f n code n₁) :
    n ≤ n₁ ∧ times l code ≤ [Label.function f.signature].count l + within l.id? n n₁ := by
  obtain ⟨body, hE, rfl⟩ := h
  obtain ⟨hle, hbody⟩ := numbers_of_emits l hE
  refine ⟨hle, ?_⟩
  have hentry : times l [.blank, Code.label (.function f.signature)] =
      [Label.function f.signature].count l := times_label l _
  have hret : times l [Code.ret] = 0 := rfl
  simp only [times_append, hentry, hret, times_eq_zero (declarations_reserve _ _),
    times_eq_zero (declarations_release _ _)]
  omega

theorem times_of_emitsFunctions {fs : List Function} {codes : List Code} (l : Label)
    (h : EmitsFunctions fs n codes) : ∃ n₁, n ≤ n₁ ∧ times l codes.flatten ≤
      (fs.map fun f => Label.function f.signature).count l + within l.id? n n₁ := by
  induction h with
  | nil => exact ⟨_, Nat.le_refl _, Nat.zero_le _⟩
  | @cons f fs n n₁ code codes hf _ ih =>
    obtain ⟨hle, hcode⟩ := times_of_emitsFunction l (emitsFunction_of_function hf)
    obtain ⟨n₂, hle', hcodes⟩ := ih
    refine ⟨n₂, Nat.le_trans hle hle', ?_⟩
    have hcount : ((f :: fs).map fun f => Label.function f.signature).count l =
        [Label.function f.signature].count l +
          (fs.map fun f => Label.function f.signature).count l := by
      rw [List.map_cons, ← List.count_append, List.singleton_append]
    rw [List.flatten_cons, times_append, hcount, ← within_add l.id? hle hle']
    omega

theorem nodup_of_duplicate? {before : List Signature} {fs : List Function}
    (h : duplicate? before fs = none) (hn : before.Nodup) :
    (before ++ fs.map Function.signature).Nodup := by
  induction fs generalizing before with
  | nil => simpa using hn
  | cons f fs ih =>
    rw [duplicate?] at h
    split at h
    · cases h
    · next hm =>
      have hcons : (before ++ [f.signature]).Nodup := by
        refine List.nodup_append.2 ⟨hn, by simp, ?_⟩
        rintro a ha b hb rfl
        exact hm (List.mem_singleton.1 hb ▸ ha)
      have hrest := ih h hcons
      rwa [List.append_assoc, List.singleton_append] at hrest

/-- No two functions of a program that passes the checks have the same name and as many parameters. -/
theorem nodup_defined_of_check {fs : List Function} (h : check fs = .ok ()) : (defined fs).Nodup := by
  rw [check] at h
  split at h
  · cases h
  · next hd => exact nodup_of_duplicate? hd (by decide)

theorem count_map_function_le {gs : List Signature} (hn : gs.Nodup) (l : Label) :
    (gs.map Label.function).count l + [Label.programEnd].count l ≤ 1 := by
  have hnodup : (gs.map Label.function ++ [Label.programEnd]).Nodup := by
    refine List.nodup_append.2 ⟨?_, by simp, ?_⟩
    · exact List.Pairwise.map _ (fun _ _ hne he => hne (Label.function.inj he)) hn
    · intro a ha b hb
      obtain ⟨g, _, rfl⟩ := List.mem_map.1 ha
      rw [List.mem_singleton.1 hb]
      exact Label.noConfusion
  rw [← List.count_append]
  exact List.nodup_iff_count.1 hnodup l

/-- A compiled program declares every label at most once. -/
theorem times_le_one_of_compile {text : String} (hc : compile text = .ok code) (l : Label) :
    times l code ≤ 1 := by
  obtain ⟨fs, codes, _, hcheck, he, rfl⟩ := compile_eq_ok hc
  obtain ⟨n₁, _, htimes⟩ := times_of_emitsFunctions l he
  have hpre : times l preamble = (Signature.builtins.map Label.function).count l :=
    times_of_declarations rfl
  have hfunctions := count_map_function_le (nodup_defined_of_check hcheck) l
  have hdefined : (defined fs).map Label.function = Signature.builtins.map Label.function ++
      fs.map fun f => Label.function f.signature := by
    rw [defined, List.map_append, List.map_map]
    rfl
  rw [hdefined, List.count_append] at hfunctions
  rw [times_append, times_append, hpre, times_label]
  -- a numbered label is none of the functions, and any other has no number in the range
  by_cases hl : l.id?.isSome
  · have hno : ∀ ls : List Label, (∀ l' ∈ ls, l'.id? = none) → ls.count l = 0 := by
      refine fun ls hls => List.count_eq_zero.2 fun hm => ?_
      rw [hls l hm] at hl
      cases hl
    have hb := hno (Signature.builtins.map Label.function) (by simp [Label.id?])
    have hf := hno (fs.map fun f => Label.function f.signature) (by simp [Label.id?])
    have he := hno [Label.programEnd] (by simp [Label.id?])
    have hw := within_le_one l.id? 0 n₁
    omega
  · have hw : within l.id? 0 n₁ = 0 := by
      rw [Option.not_isSome_iff_eq_none.1 hl]
      rfl
    omega

end

end WordMachine.Compiler
