import WordMachine.Proofs.Compiler.Assembled
import WordMachine.Proofs.Compiler.Fragments
import WordMachine.Proofs.Machine.Following
import WordMachine.Proofs.Machine.Installation
import WordMachine.Proofs.Machine.Transfer

/-!
# Comparisons and the signed order

The machine has no comparison. The code of one subtracts and looks at the sign of what is left of the
difference in a word. That is the sign of the difference unless this lies outside the signed words, so
a comparison is exact just where it does not. Otherwise less and greater answer the wrong way round, and
both answer yes for operands that are 2^31 apart.
-/

namespace WordMachine

namespace Word

/-! ### Signed differences -/

def Fits (x : Int) : Prop := -2147483648 ≤ x ∧ x < 2147483648

theorem toNat_sub_eq (a b : Word) : (a - b).toNat = if b.toNat ≤ a.toNat then a.toNat - b.toNat
    else a.toNat + 4294967296 - b.toNat := by
  have ha := a.toNat_lt
  have hb := b.toNat_lt
  rw [UInt32.toNat_sub]
  split <;> omega

theorem sign_sub_iff (a b : Word) :
    ((a - b).signed < 0 ↔ a.signed < b.signed) ↔ Fits (a.signed - b.signed) := by
  have ha := a.toNat_lt
  have hb := b.toNat_lt
  rw [signed_lt_zero_iff, toNat_sub_eq, signed_eq, signed_eq, Fits]
  split <;> split <;> split <;> omega

end Word

namespace Source

/-! ### The order of words -/

def BinaryOp.comparisons : List BinaryOp := [equal, less, greater]

/-- Whether two words are in the order that a comparison names, as signed numbers. -/
def BinaryOp.orders : BinaryOp → Word → Word → Bool
  | equal, a, b => a.signed = b.signed
  | less, a, b => a.signed < b.signed
  | greater, a, b => b.signed < a.signed
  | _, _, _ => false

/-- The difference that a comparison looks at is that of a word. -/
def BinaryOp.Exact : BinaryOp → Word → Word → Prop
  | less, a, b => Word.Fits (a.signed - b.signed)
  | greater, a, b => Word.Fits (b.signed - a.signed)
  | _, _, _ => True

section

variable {a b c : Word} {op : BinaryOp}

theorem truth_eq_one_iff {p : Prop} [Decidable p] : truth p = 1 ↔ p := by
  by_cases hp : p
  · simp [truth, hp]
  · simp [truth, hp]

theorem truth_inj {p q : Prop} [Decidable p] [Decidable q] : truth p = truth q ↔ (p ↔ q) := by
  by_cases hp : p <;> by_cases hq : q <;> simp [truth, hp, hq]

theorem apply_equal_iff : BinaryOp.equal.apply a b = some 1 ↔ a = b := by
  rw [BinaryOp.apply, Option.some_inj, truth_eq_one_iff]

theorem apply_less_iff : BinaryOp.less.apply a b = some 1 ↔ (a - b).signed < 0 := by
  rw [BinaryOp.apply, Option.some_inj, truth_eq_one_iff]

theorem apply_greater_iff : BinaryOp.greater.apply a b = some 1 ↔ (b - a).signed < 0 := by
  rw [BinaryOp.apply, Option.some_inj, truth_eq_one_iff]

theorem apply_eq_orders_iff (hop : op ∈ BinaryOp.comparisons) :
    op.apply a b = some (truth (op.orders a b = true)) ↔ op.Exact a b := by
  simp only [BinaryOp.comparisons, List.mem_cons, List.not_mem_nil, or_false] at hop
  rcases hop with rfl | rfl | rfl
  · rw [BinaryOp.apply, Option.some_inj, truth_inj, BinaryOp.orders, decide_eq_true_iff, Word.signed_inj]
    exact iff_of_true Iff.rfl trivial
  · rw [BinaryOp.apply, Option.some_inj, truth_inj, BinaryOp.orders, decide_eq_true_iff]
    exact Word.sign_sub_iff a b
  · rw [BinaryOp.apply, Option.some_inj, truth_inj, BinaryOp.orders, decide_eq_true_iff]
    exact Word.sign_sub_iff b a

/-- Exactly one comparison answers yes, except for words that are as far apart as can be. -/
theorem countP_apply_iff : (BinaryOp.comparisons.countP fun op => op.apply a b = some 1) = 1 ↔
    a - b ≠ 2147483648 := by
  have hlt := (a - b).toNat_lt
  have hneg : (b - a).toNat = (4294967296 - (a - b).toNat) % 4294967296 := by
    rw [← UInt32.neg_sub, UInt32.toNat_neg]
  have hequal : BinaryOp.equal.apply a b = some 1 ↔ (a - b).toNat = 0 := by
    have ha := a.toNat_lt
    have hb := b.toNat_lt
    rw [apply_equal_iff, ← UInt32.toNat_inj, Word.toNat_sub_eq]
    split <;> omega
  have hless : BinaryOp.less.apply a b = some 1 ↔ 2147483648 ≤ (a - b).toNat :=
    apply_less_iff.trans (Word.signed_lt_zero_iff _)
  have hgreater : BinaryOp.greater.apply a b = some 1 ↔
      0 < (a - b).toNat ∧ (a - b).toNat ≤ 2147483648 := by
    rw [apply_greater_iff, Word.signed_lt_zero_iff, hneg]
    omega
  have hapart : a - b = 2147483648 ↔ (a - b).toNat = 2147483648 := UInt32.toNat_inj.symm
  -- all three answers depend on the difference alone
  simp only [BinaryOp.comparisons, List.countP_cons, List.countP_nil, decide_eq_true_iff, hequal,
    hless, hgreater, ne_eq, hapart]
  split <;> split <;> split <;> omega

/-- Less is transitive as far as it is exact. -/
theorem apply_less_trans (hab : BinaryOp.less.Exact a b) (hbc : BinaryOp.less.Exact b c)
    (hac : BinaryOp.less.Exact a c) (h : BinaryOp.less.apply a b = some 1)
    (h' : BinaryOp.less.apply b c = some 1) : BinaryOp.less.apply a c = some 1 := by
  rw [apply_less_iff] at *
  rw [(Word.sign_sub_iff a b).2 hab] at h
  rw [(Word.sign_sub_iff b c).2 hbc] at h'
  rw [(Word.sign_sub_iff a c).2 hac]
  exact Int.lt_trans h h'

end

end Source

namespace Machine

open Assembly Compiler Source Generator

/-! ### Code that compares -/

section

variable {σ : Type} [Host σ]

/-- The code between two offsets has put the word of an operand into a register, and the stack pointer
is where it was. -/
structure Operand (program : List UInt8) (r : Register) (w : Word) (o o' : Nat) (m : Machine) (h : σ)
    (m' : Machine) (h' : σ) : Prop where
  start : m.At o
  path : Path Anywhere m h m' h'
  position : m'.At o'
  loaded : m'.Loaded program
  value : m'.get r = w
  stack : m'.get .stack = m.get .stack

variable {labels : Labels} {program : List UInt8} {r : Register} {a b w : Word} {o o' o₁ o₂ : Nat}
  {m m₁ m₂ m₃ m' : Machine} {h h₁ h₂ h₃ h' : σ} {op : BinaryOp} {left right : Expr}
  {c c' c₁ c₂ : Context} {code first second rest : Code}

theorem Path.programOffset {region : Nat → Prop} (p : Path region m h m' h') :
    m'.programOffset = m.programOffset := by
  induction p with
  | done => rfl
  | step _ hs _ ih => exact ih.trans (programOffset_of_running hs)

theorem Runs.operand {x : Int} (p : Runs x m h m' [r, r.adjacent] o o') (hl : m.Loaded program)
    (hx : x ≤ m.programOffset.toNat) (ha : m.At o) (hr : r.General) (hv : m'.get r = w) :
    Operand program r w o o' m h m' h where
  start := ha
  path := p.path.mono fun _ _ => trivial
  position := p.position
  loaded := p.loaded hx hl
  value := hv
  stack := p.others .stack (by simp [hr.ne_stack.symm, (r.general_adjacent).ne_stack.symm]) (by decide)

theorem expression_binary_eq_ok (hright : expression right (some r) c = .ok (second, c₁))
    (hleft : expression left (some r) { c₁ with frame := c₁.frame.push 1 } = .ok (first, c₂))
    (hcode : expression (.binary op left right) (some r) c = .ok (code, c')) :
    ∃ id, code = second ++ Code.push r :: (first ++ Code.pop r.adjacent ::
      combination op r r.adjacent id) := by
  simp only [expression, bind_eq_ok, pushed_eq_ok, combine_eq_ok, pure_eq_ok] at hcode
  obtain ⟨_, _, hr, _, _, rfl, _, _, hl, _, d, _, _, _, ⟨rfl, _⟩, rfl, _⟩ := hcode
  rw [hright] at hr
  cases hr
  rw [hleft] at hl
  cases hl
  exact ⟨d.nextId, by simp⟩

theorem pushed_of_step (hl : m.Loaded program) (ha : m.At o)
    (hp : Placed labels program o (Code.push r :: rest)) (hs : m.step h = (m', h', .running)) :
    h' = h ∧ m'.get .stack = m.get .stack - 4 ∧ m'.memory.size = m.memory.size ∧
      m'.memory.Holds (m'.get .stack) 4 ∧ m'.memory.read (m'.get .stack) 4 = m.get r := by
  by_cases hb : m.memory.Holds (m.get .stack - 4) 4
  · rw [step_push hl ha hp hb h] at hs
    cases hs
    rw [get_pushed, if_neg Register.stack_ne_instruction, if_pos rfl, memory_pushed, Memory.Holds,
      Memory.size_write]
    exact ⟨rfl, rfl, rfl, hb, Memory.read_write_self _ hb⟩
  · rw [step_push_fault hl ha hp hb h] at hs
    cases hs

/-- After both operands the code comes to its end with the word that the operator makes of them. -/
theorem binary_leaves (hright : expression right (some r) c = .ok (second, c₁))
    (hleft : expression left (some r) { c₁ with frame := c₁.frame.push 1 } = .ok (first, c₂))
    (hcode : expression (.binary op left right) (some r) c = .ok (code, c')) (hr : r.General)
    (hp : Placed labels program o code) (hb : Operand program r b o (o + extent second) m h m₁ h₁)
    (hpush : m₁.step h₁ = (m₂, h₂, .running))
    (ha : Operand program r a (o + extent second + 2) (o + extent second + 2 + extent first)
      m₂ h₂ m₃ h₃)
    (hkept : m₃.memory.read (m₂.get .stack) 4 = m₂.memory.read (m₂.get .stack) 4)
    (hw : op.apply a b = some w) :
    ∃ m', Path Anywhere m h m' h₃ ∧ m'.At (o + extent code) ∧ m'.get .stack = m.get .stack ∧
      m'.get r = w := by
  obtain ⟨id, rfl⟩ := expression_binary_eq_ok hright hleft hcode
  have hra := r.general_adjacent
  rw [← List.append_nil (combination op r r.adjacent id)] at hp
  obtain ⟨rfl, hs₂, hsize₂, hholds₂, htop₂⟩ := pushed_of_step hb.loaded hb.position hp.right hpush
  have hsize₃ : m₃.memory.size = m₂.memory.size := by
    rw [← ha.loaded.size_eq, hsize₂, ← hb.loaded.size_eq, ha.path.programOffset,
      programOffset_of_running hpush]
  have hword : m₃.memory.word? ((m₃.get .stack).toNat : Int) = some b := by
    have hin : (m₂.get .stack).toNat + 4 ≤ m₂.memory.size := hholds₂
    rw [ha.stack, Memory.word?_eq_some (by omega) (by omega), Word.ofInt_toNat, hkept, htop₂, hb.value]
  have hp₃ : Placed labels program (o + extent second + 2 + extent first)
      (Code.pop r.adjacent :: (combination op r r.adjacent id ++ [])) := hp.right.tail.right
  obtain ⟨m₄, p₄, hb₄, hs₄⟩ := runs_pop (Word.ofInt_toNat _).symm hword hra.ne_instruction
    hra.ne_stack ha.loaded ha.position hp₃ h₃
  have ha₄ : m₄.get r = a := by
    rw [p₄.others r (by simp [hr.ne_stack, hr.adjacent_ne.symm]) hr.ne_instruction, ha.value]
  rw [← ha₄, ← hb₄] at hw
  obtain ⟨m₅, p₅, hw₅⟩ := runs_combination hr (p₄.loaded_of_zero ha.loaded) p₄.position hp₃.tail hw h₃
  refine ⟨m₅, ?_, ?_, ?_, hw₅⟩
  · have hsteps := (p₄.path.mono fun _ _ => trivial).trans (p₅.path.mono fun _ _ => trivial)
    exact hb.path.trans (.step trivial hpush (ha.path.trans hsteps))
  · have hpos := p₅.position
    have hsizes : (Code.push r).size = 2 ∧ (Code.pop r.adjacent).size = 2 := ⟨rfl, rfl⟩
    simp only [extent_append, extent_cons, hsizes, Nat.add_assoc] at hpos ⊢
    exact hpos
  · rw [p₅.others .stack (by simp [hr.ne_stack.symm, hra.ne_stack.symm]) (by decide), hs₄,
      Word.ofInt_add, Word.ofInt_toNat, Word.ofInt_four, ha.stack, hs₂, UInt32.sub_add_cancel, hb.stack]

/-- The code of a comparison leaves the truth value of the signed order of its operands exactly if it is
exact: equality always, the others if no difference of the operands leaves the signed words. Exactly
one of the three answers yes, unless the operands are 2^31 apart, and less is transitive as far as it is
exact. -/
theorem comparison_leaves_order (hright : expression right (some r) c = .ok (second, c₁))
    (hleft : expression left (some r) { c₁ with frame := c₁.frame.push 1 } = .ok (first, c₂))
    (hcode : expression (.binary op left right) (some r) c = .ok (code, c'))
    (hop : op ∈ BinaryOp.comparisons) (hr : r.General) (hp : Placed labels program o code)
    (hb : Operand program r b o (o + extent second) m h m₁ h₁)
    (hpush : m₁.step h₁ = (m₂, h₂, .running))
    (ha : Operand program r a (o + extent second + 2) (o + extent second + 2 + extent first)
      m₂ h₂ m₃ h₃)
    (hkept : m₃.memory.read (m₂.get .stack) 4 = m₂.memory.read (m₂.get .stack) 4) :
    (∃ m', Path Anywhere m h m' h₃ ∧ m'.At (o + extent code) ∧ m'.get .stack = m.get .stack ∧
      op.apply a b = some (m'.get r) ∧
      (m'.get r = truth (op.orders a b = true) ↔ op.Exact a b)) ∧
    ((BinaryOp.comparisons.countP fun op => op.apply a b = some 1) = 1 ↔ a - b ≠ 2147483648) ∧
    ∀ c, BinaryOp.less.Exact a b → BinaryOp.less.Exact b c → BinaryOp.less.Exact a c →
      BinaryOp.less.apply a b = some 1 → BinaryOp.less.apply b c = some 1 →
      BinaryOp.less.apply a c = some 1 := by
  refine ⟨?_, countP_apply_iff, fun c => apply_less_trans⟩
  obtain ⟨w, hw⟩ : ∃ w, op.apply a b = some w := by
    simp only [BinaryOp.comparisons, List.mem_cons, List.not_mem_nil, or_false] at hop
    rcases hop with rfl | rfl | rfl <;> exact ⟨_, rfl⟩
  obtain ⟨m', hpath, hpos, hstack, hvalue⟩ := binary_leaves hright hleft hcode hr hp hb hpush ha hkept hw
  refine ⟨m', hpath, hpos, hstack, hvalue ▸ hw, ?_⟩
  rw [← apply_eq_orders_iff hop, hw, hvalue, Option.some_inj]

end

/-- Minus three is less than four. -/
theorem comparison_leaves_order_small : ∃ (m : Machine) (code : Code) (c : Context),
    m.Loaded [2, 1, 4, 0, 0, 0, 11, 1, 2, 1, 253, 255, 255, 255, 12, 2, 15, 1, 2, 2, 1, 1, 0, 0, 0, 33,
      33, 0, 0, 0, 25, 1, 1] ∧
    m.At 0 ∧ expression (.binary .less (.int 4294967293) (.int 4)) (some ⟨1⟩) ⟨0, ⟨[], [], 0⟩, none⟩ =
      .ok (code, c) ∧
    ∀ h : WordQueue, ∃ m', Path Anywhere m h m' h ∧ m'.At 33 ∧ m'.get .stack = m.get .stack ∧
      m'.get ⟨1⟩ = 1 := by
  obtain ⟨m, hinstall, hoffset⟩ : ∃ m, (Machine.empty 64).install [2, 1, 4, 0, 0, 0, 11, 1, 2, 1, 253,
      255, 255, 255, 12, 2, 15, 1, 2, 2, 1, 1, 0, 0, 0, 33, 33, 0, 0, 0, 25, 1, 1] = .ok m ∧
      m.programOffset = 31 := ⟨_, rfl, by decide⟩
  obtain ⟨hl, ha, hs, _⟩ := Installed.of_install hinstall
  rw [hoffset] at hs
  have hcode : expression (.binary .less (.int 4294967293) (.int 4)) (some ⟨1⟩)
      ⟨0, ⟨[], [], 0⟩, none⟩ = .ok ([Code.set ⟨1⟩ 4, Code.push ⟨1⟩, Code.set ⟨1⟩ 4294967293,
        Code.pop ⟨2⟩, Code.sub ⟨1⟩ ⟨2⟩] ++ truthCode Code.jis ⟨1⟩ 0, ⟨1, ⟨[], [], 0⟩, none⟩) := rfl
  have hp : Placed ⟨[("@l0", 33)]⟩ [2, 1, 4, 0, 0, 0, 11, 1, 2, 1, 253, 255, 255, 255, 12, 2, 15, 1, 2,
      2, 1, 1, 0, 0, 0, 33, 33, 0, 0, 0, 25, 1, 1] 0 ([Code.set ⟨1⟩ 4, Code.push ⟨1⟩,
        Code.set ⟨1⟩ 4294967293, Code.pop ⟨2⟩, Code.sub ⟨1⟩ ⟨2⟩] ++ truthCode Code.jis ⟨1⟩ 0) :=
    ⟨⟨_, rfl, by decide⟩, ⟨_, rfl, by decide⟩, ⟨_, rfl, by decide⟩, ⟨_, rfl, by decide⟩,
      ⟨_, rfl, by decide⟩, ⟨_, rfl, by decide⟩, ⟨_, rfl, by decide⟩, ⟨_, rfl, by decide⟩, by decide,
      Nat.le_refl 33⟩
  refine ⟨m, _, _, hl, ha, hcode, fun h => ?_⟩
  have hr : Register.General ⟨1⟩ := by decide
  have hstart : (31 : Int) ≤ m.programOffset.toNat := by rw [hoffset]; decide
  obtain ⟨m₁, p₁, hb₁, _⟩ := runs_set hr.ne_instruction hl ha hp h
  have hb := (p₁.mono (by decide : (0 : Int) ≤ 31) (by simp)).operand hl hstart ha hr hb₁
  have hs₁ : m₁.get .stack = Word.ofInt 31 := hb.stack.trans hs
  have hsize₁ : m₁.memory.size = 64 := by
    rw [← hb.loaded.size_eq, p₁.programOffset, hoffset]
    rfl
  have hholds : m₁.memory.Holds (m₁.get .stack - 4) 4 := by
    rw [hs₁, Memory.Holds, hsize₁]
    decide
  have hpush := step_push hb.loaded hb.position hp.tail hholds h
  obtain ⟨p₂, hs₂, _⟩ := arrives_pushed (x := 31) hs₁ (by decide) (by omega) (m₁.get ⟨1⟩) 8
  have hstart₁ : (31 : Int) ≤ m₁.programOffset.toNat := by rwa [p₁.programOffset]
  have hl₂ := p₂.loaded hstart₁ hb.loaded
  obtain ⟨m₃, p₃, ha₃, _⟩ := runs_set hr.ne_instruction hl₂ p₂.position hp.tail.tail h
  have hleft := (p₃.mono (Int.le_refl 0) (by simp)).operand hl₂ (Int.natCast_nonneg _) p₂.position hr ha₃
  obtain ⟨⟨m', hpath, hpos, hstack, hvalue, _⟩, _⟩ := comparison_leaves_order rfl rfl hcode (by decide)
    hr hp hb hpush hleft (by rw [p₃.memory])
  refine ⟨m', hpath, hpos, hstack, ?_⟩
  have hyes : BinaryOp.less.apply 4294967293 4 = some 1 := by decide
  exact Option.some.inj (hvalue.symm.trans hyes)

/-- The code of `2147483647 < -1` leaves one. -/
theorem comparison_overflows : ¬(2147483647 : Word).signed < (4294967295 : Word).signed ∧
    ∃ (m : Machine) (code : Code) (c : Context), (Machine.empty 64).install [2, 1, 255, 255, 255, 255,
      11, 1, 2, 1, 255, 255, 255, 127, 12, 2, 15, 1, 2, 2, 1, 1, 0, 0, 0, 33, 33, 0, 0, 0, 25, 1, 1] =
        .ok m ∧
      expression (.binary .less (.int 2147483647) (.int 4294967295)) (some ⟨1⟩)
        ⟨0, ⟨[], [], 0⟩, none⟩ = .ok (code, c) ∧
      Placed ⟨[("@l0", 33)]⟩ [2, 1, 255, 255, 255, 255, 11, 1, 2, 1, 255, 255, 255, 127, 12, 2, 15, 1,
        2, 2, 1, 1, 0, 0, 0, 33, 33, 0, 0, 0, 25, 1, 1] 0 code ∧
      (run 7 m (WordQueue.ofWords [])).2.2 = .running ∧
      (run 7 m (WordQueue.ofWords [])).1.get .instruction = m.absolute 33 ∧
      (run 7 m (WordQueue.ofWords [])).1.get ⟨1⟩ = 1 := by
  have hruns : ((Machine.empty 64).install [2, 1, 255, 255, 255, 255, 11, 1, 2, 1, 255, 255, 255, 127,
      12, 2, 15, 1, 2, 2, 1, 1, 0, 0, 0, 33, 33, 0, 0, 0, 25, 1, 1]).toOption.any (fun m => decide (
      (run 7 m (WordQueue.ofWords [])).2.2 = .running ∧
      (run 7 m (WordQueue.ofWords [])).1.get .instruction = m.absolute 33 ∧
      (run 7 m (WordQueue.ofWords [])).1.get ⟨1⟩ = 1)) = true := by decide +kernel
  obtain ⟨m, hinstall, htest⟩ := exists_of_any hruns
  have hp : Placed ⟨[("@l0", 33)]⟩ [2, 1, 255, 255, 255, 255, 11, 1, 2, 1, 255, 255, 255, 127, 12, 2,
      15, 1, 2, 2, 1, 1, 0, 0, 0, 33, 33, 0, 0, 0, 25, 1, 1] 0 ([Code.set ⟨1⟩ 4294967295,
        Code.push ⟨1⟩, Code.set ⟨1⟩ 2147483647, Code.pop ⟨2⟩, Code.sub ⟨1⟩ ⟨2⟩] ++
        truthCode Code.jis ⟨1⟩ 0) :=
    ⟨⟨_, rfl, by decide⟩, ⟨_, rfl, by decide⟩, ⟨_, rfl, by decide⟩, ⟨_, rfl, by decide⟩,
      ⟨_, rfl, by decide⟩, ⟨_, rfl, by decide⟩, ⟨_, rfl, by decide⟩, ⟨_, rfl, by decide⟩, by decide,
      Nat.le_refl 33⟩
  exact ⟨by decide, m, _, ⟨1, ⟨[], [], 0⟩, none⟩, hinstall, rfl, hp, of_decide_eq_true htest⟩

end Machine

end WordMachine
