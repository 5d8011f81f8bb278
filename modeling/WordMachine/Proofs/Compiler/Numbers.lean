import WordMachine.Proofs.Assembly.Reading
import WordMachine.Proofs.Assembly.Layout
import WordMachine.Proofs.Compiler.Frames

/-!
# Numbers in compiled programs

The numbers in a program are constants of its text and distances on the stack. A distance is at most
the size of the frame and of what is pushed, and each word is pushed by an instruction.
-/

namespace WordMachine.Compiler

open Assembly Source

def number? (line : Line) : Option Int :=
  line.instruction?.bind fun i => i.operands.value?.bind fun v =>
    match v with
    | .number n => some n
    | .label _ => none

def numbers (code : Code) : List Int := code.filterMap number?

/-- The numbers in lines are words, or four times what the lines can reach with so many words below. -/
def Reaches (k : Nat) (code : Code) : Prop :=
  ∀ n ∈ numbers code, n < 4294967296 ∨ n ≤ 4 * (k + extent code : Nat)

section

variable {k k' n n₁ : Nat} {a b code : Code}

theorem numbers_append (a b : Code) : numbers (a ++ b) = numbers a ++ numbers b :=
  List.filterMap_append

theorem reaches_of_none (h : numbers code = []) : Reaches k code := by
  intro n hn
  rw [h] at hn
  cases hn

theorem Reaches.append (ha : Reaches k a) (hb : Reaches k' b) (hk : k' ≤ k + extent a) :
    Reaches k (a ++ b) := by
  intro n hn
  rw [extent_append]
  rw [numbers_append, List.mem_append] at hn
  cases hn with
  | inl h => exact (ha n h).imp_right fun hle => by omega
  | inr h => exact (hb n h).imp_right fun hle => by omega

theorem Reaches.both (ha : Reaches k a) (hb : Reaches k b) : Reaches k (a ++ b) :=
  ha.append hb (Nat.le_add_right _ _)

theorem Reaches.silent (ha : Reaches k a) (h : numbers b = []) : Reaches k (a ++ b) :=
  ha.both (reaches_of_none h)

theorem reaches_set {r : Register} {m : Nat} (h : m < 4294967296 ∨ m ≤ 4 * k) :
    Reaches k [Code.set r m] := by
  intro n hn
  cases List.mem_singleton.1 hn
  obtain h | h := h
  · exact .inl (by omega)
  · exact .inr (by omega)

theorem reaches_addressAt {m : Nat} (r : Register) (h : m ≤ k) : Reaches k (addressAt m r) := by
  unfold addressAt
  split
  · exact reaches_of_none rfl
  · exact (reaches_set (.inr (by omega))).both (b := [_]) (reaches_of_none rfl)

theorem reaches_valueAt {m : Nat} (r : Register) (h : m ≤ k) : Reaches k (valueAt m r) := by
  unfold valueAt
  split
  · exact reaches_of_none rfl
  · exact (reaches_addressAt r h).silent rfl

theorem reaches_release {m : Nat} (r : Register) (h : m ≤ k) : Reaches k (Code.release r m) := by
  unfold Code.release
  split
  · exact reaches_of_none rfl
  · exact (reaches_set (.inr (by omega))).both (b := [_]) (reaches_of_none rfl)

theorem reaches_reserve {m : Nat} (r : Register) (h : m ≤ k) : Reaches k (Code.reserve r m) := by
  unfold Code.reserve
  split
  · exact reaches_of_none rfl
  · exact (reaches_set (.inr (by omega))).both (b := [_]) (reaches_of_none rfl)

theorem reaches_truthCode {jump : Label → Line} {c : Flags → Bool} (hc : Machine.Branches jump c)
    (r : Register) (n : Nat) : Reaches k (truthCode jump r n) := by
  have hjump : numbers [jump (.truth n), Code.xor r r, Code.label (.truth n)] = [] := by
    cases hc <;> rfl
  exact (reaches_set (.inl (by decide))).both (b := [_, _, _]) (reaches_of_none hjump)

theorem reaches_combination (op : BinaryOp) (r x : Register) (n : Nat) :
    Reaches k (combination op r x n) := by
  cases op with
  | equal => exact .both (a := [_]) (reaches_of_none rfl) (reaches_truthCode .jiz r n)
  | less | greater => exact .both (a := [_]) (reaches_of_none rfl) (reaches_truthCode .jis r n)
  | add | subtract | bitOr | bitXor | multiply | divide | remainder | bitAnd => exact reaches_of_none rfl

/-! ### All parts -/

/-- The words of a frame and of what is pushed above it, without the return address. -/
def Frame.words (f : Frame) : Nat := f.depth + f.parameters.length

theorem Frame.words_push (f : Frame) : (f.push 1).words = f.words + 1 := by
  simp only [words, depth, push]
  omega

theorem extent_push (r : Register) : extent [Code.push r] = 2 := rfl

theorem length_le_extent_of_emits {i : Option Loop} {f : Frame} {es : List Expr} {r : Register}
    (hE : Emits i f (.arguments es r) n code n₁) : es.length ≤ extent code := by
  induction es generalizing f n code with
  | nil => exact Nat.zero_le _
  | cons e es ih =>
    cases hE with
    | argument _ hs =>
      have hrest := ih hs
      simp only [extent_append, extent_push, List.length_cons]
      omega

theorem reaches_of_emits {i : Option Loop} {f : Frame} {part : Part} (hE : Emits i f part n code n₁) :
    Reaches f.words code := by
  have hdepth : ∀ f : Frame, f.depth ≤ f.words := fun f => Nat.le_add_right _ _
  have hpush : ∀ {f : Frame} {a : Code} {r : Register},
      (f.push 1).words ≤ f.words + extent (a ++ [Code.push r]) := by
    intro f a r
    rw [Frame.words_push, extent_append, extent_push]
    omega
  induction hE with
  | @int _ _ _ w out =>
    cases out with
    | none => exact reaches_of_none rfl
    | some r => exact reaches_set (.inl w.toNat_lt)
  | unusedName | unusedPlace | noArguments | nil => exact reaches_of_none rfl
  | name hk => exact reaches_valueAt _ ((Frame.offset?_bounds hk).2.2)
  | unusedBinary hr hl ihr ihl => exact ihr.both ihl
  | binary hr hl ihr ihl =>
    exact (((ihr.silent rfl).append ihl hpush).silent rfl).both (reaches_combination _ _ _ _)
  | addressOf h ih | unusedNot h ih | pointer h ih | exec h ih => exact ih
  | @negate _ _ _ _ _ out _ h ih | @bitNot _ _ _ _ _ out _ h ih
  | @dereference _ _ _ _ _ out _ h ih => exact ih.silent (by cases out <;> rfl)
  | logicalNot h ih => exact (ih.silent rfl).both (reaches_truthCode .jiz _ _)
  | @call _ _ _ _ _ es out code h ih =>
    have hlen := length_le_extent_of_emits h
    have hrelease : Reaches es.length (Code.release .result es.length) :=
      reaches_release _ (Nat.le_refl _)
    refine ((ih.silent rfl).silent (by cases out <;> rfl)).append hrelease ?_
    simp only [extent_append]
    omega
  | argument h hs ih ihs => exact (ih.silent rfl).append ihs hpush
  | namePlace hk => exact reaches_addressAt _ ((Frame.offset?_bounds hk).2.2)
  | ifOnly he hs ihe ihs => exact ((ihe.silent rfl).both ihs).silent rfl
  | ifElse he hs ht ihe ihs iht => exact ((((ihe.silent rfl).both ihs).silent rfl).both iht).silent rfl
  | whileDo he hs ihe ihs =>
    exact ((((reaches_of_none rfl).both (a := [_]) ihe).silent rfl).both ihs).silent rfl
  | forDo hp hs hc hb ht ihp ihs ihc ihb iht =>
    refine ((((((((((ihp.silent rfl).append ihs hpush).silent rfl).silent rfl).append ihc ?_).silent
      rfl).append ihb ?_).silent rfl).append iht ?_).silent rfl).silent rfl
    all_goals
      simp only [Frame.words_push, extent_append, extent_push]
      omega
  | retNothing => exact (reaches_release _ (hdepth _)).silent rfl
  | ret h ih => exact (ih.both (reaches_release _ (hdepth _))).silent rfl
  | breakLoop | continueLoop => exact reaches_of_none rfl
  | assign hp he ihp ihe => exact (((ihp.silent rfl).append ihe hpush).silent rfl)
  | cons hs hss ihs ihss => exact ihs.both ihss

/-! ### Functions -/

theorem reaches_of_emitsFunction {f : Function} (h : EmitsFunction f n code n₁) :
    Reaches (f.parameters.length + f.locals.length) code := by
  obtain ⟨body, hE, rfl⟩ := h
  have hwords : (⟨f.parameters, f.locals, 0⟩ : Frame).words = f.parameters.length + f.locals.length :=
    Nat.add_comm _ _
  have hbody := reaches_of_emits hE
  rw [hwords] at hbody
  have hlocals : f.locals.length ≤ f.parameters.length + f.locals.length := Nat.le_add_left _ _
  exact ((((reaches_of_none rfl).both (reaches_reserve _ hlocals)).both hbody).both
    (reaches_release _ hlocals)).silent rfl

/-- The numbers in lines can be read if the lines are short and few words are below. -/
theorem Reaches.fits (h : Reaches k code) (hk : k + extent code < 2305843009213693952) {line : Line}
    (hl : line ∈ code) : line.Fits := by
  cases line with
  | blank | label => exact trivial
  | instruction i =>
    intro v hv
    cases v with
    | label name => exact trivial
    | number m =>
      have hm : m ∈ numbers code :=
        List.mem_filterMap.2 ⟨_, hl, by simp [number?, Line.instruction?, hv]⟩
      show m < 9223372036854775808
      obtain hlt | hle := h m hm <;> omega

end

end WordMachine.Compiler
