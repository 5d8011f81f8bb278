import WordMachine.Proofs.Compiler.Frames

/-!
# Moves between frames

What the short sequences of compiled code do to a machine in a frame. A push or a call starves the
machine if its stack has come to the lower end of memory, and nothing else does.
-/

namespace WordMachine

/-! ### Jumps and the stack pointer -/

theorem Operands.ok_of_traverse {V W ε : Type} {s : Shape} {g : V → Except ε W} {x : Operands V s}
    {y : Operands W s} {v : V} (h : x.traverse g = .ok y) (hv : x.value? = some v) :
    ∃ w, g v = .ok w := by
  cases x with
  | regVal r u | label u =>
    cases hv
    cases hg : g v with
    | ok w => exact ⟨w, rfl⟩
    | error e =>
      simp only [traverse, hg] at h
      cases h
  | none | reg | regReg => cases hv

theorem Assembly.Placed.target {labels : Labels} {program : List UInt8} {o : Nat} {rest : List Line}
    {i : Instruction Value} {name : String} (hp : Placed labels program o (.instruction i :: rest))
    (hv : i.operands.value? = some (.label name)) : ∃ v, labels.get? name = some v := by
  obtain ⟨⟨j, hj, _⟩, _⟩ := hp
  cases hx : i.operands.traverse (Value.resolve true labels) with
  | error e =>
    rw [Instruction.traverse, hx] at hj
    cases hj
  | ok y =>
    obtain ⟨w, hw⟩ := Operands.ok_of_traverse hx hv
    cases hg : labels.get? name with
    | some v => exact ⟨v, rfl⟩
    | none =>
      rw [Value.resolve, hg] at hw
      cases hw

namespace Machine

open Assembly Compiler Source

variable {σ : Type} [Host σ] {labels : Labels} {program : List UInt8} {m m' : Machine} {h : σ}
  {o o' e n : Nat} {rest : Code} {r : Register} {rs : List Register} {x : Int} {l : Label}

theorem Runs.anywhere (p : Runs x m h m' rs o o') : Path Anywhere m h m' h :=
  p.path.mono fun _ _ => trivial

theorem goes_jmp (hl : m.Loaded program) (ha : m.At o)
    (hp : Placed labels program o (Code.jmp l :: rest))
    (hv : labels.get? l.text = some (UInt32.ofNat e)) (h : σ) :
    ∃ m', Path Anywhere m h m' h ∧ Arrives 0 m m' [] e :=
  ⟨_, .single trivial (step_jmp hl ha hp hv h), arrives_goto m e⟩

theorem goes_ret {w : Word} (hl : m.Loaded program) (ha : m.At o)
    (hp : Placed labels program o (Code.ret :: rest)) (hx : m.get .stack = Word.ofInt x)
    (hw : m.memory.word? x = some w) (h : σ) :
    ∃ m', Path Anywhere m h m' h ∧ m'.get .instruction = w ∧ m'.get .stack = Word.ofInt (x + 4) ∧
      m'.memory = m.memory ∧ m'.programOffset = m.programOffset ∧
      ∀ q, q ≠ .stack → q ≠ .instruction → m'.get q = m.get q := by
  refine ⟨_, .single trivial (step_ret hl ha hp (holds_top hx hw) h), ?_, ?_, rfl, rfl, ?_⟩
  · rw [get_goto, if_pos rfl, hx, Memory.read_of_word? hw]
  · rw [get_goto, if_neg Register.stack_ne_instruction, get_set, if_pos rfl, top_add_four hx]
  · intro q hq hi
    rw [get_goto, if_neg hi, get_set, if_neg hq]

theorem goes_test (hr : r.General) (hl : m.Loaded program) (ha : m.At o)
    (hp : Placed labels program o (Code.test r :: Code.jiz l :: rest))
    (hv : labels.get? l.text = some (UInt32.ofNat e)) (h : σ) :
    ∃ m', Path Anywhere m h m' h ∧ Arrives 0 m m' [r] (if m.get r = 0 then e else o + 8) := by
  obtain ⟨m₁, p₁, hv₁, hf₁⟩ := runs_combine .and hr.ne_instruction hl ha hp h
  have hl₁ := p₁.loaded_of_zero hl
  have hs := step_branch .jiz hl₁ p₁.position hp.tail hv h
  rw [hf₁.1, hv₁, UInt32.and_self] at hs
  by_cases hz : m.get r = 0
  · rw [if_pos (decide_eq_true hz)] at hs
    rw [if_pos hz]
    exact ⟨_, p₁.anywhere.trans (.single trivial hs),
      p₁.toArrives.trans ((arrives_goto m₁ e).mono (Int.le_refl 0) (by simp))⟩
  · rw [if_neg (by simp [hz])] at hs
    rw [if_neg hz]
    exact ⟨_, p₁.anywhere.trans (.single trivial hs),
      p₁.toArrives.trans ((arrives_goto m₁ (o + 8)).mono (Int.le_refl 0) (by simp))⟩

theorem arrives_refl (ha : m.At o) (rs : List Register) : Arrives 0 m m rs o where
  position := ha
  agree := .refl _ _
  programOffset := rfl
  others _ _ _ := rfl

theorem runs_refl (ha : m.At o) (h : σ) : Runs 0 m h m rs o o where
  toArrives := arrives_refl ha rs
  path := .done m h
  le := Nat.le_refl o

theorem runs_release_through (hr : r ≠ .instruction) (hrs : r ≠ .stack) (hl : m.Loaded program)
    (ha : m.At o) (hp : Placed labels program o (Code.release r n ++ rest)) (h : σ) :
    ∃ m', Runs 0 m h m' [r, .stack] o (o + extent (Code.release r n)) ∧
      m'.get .stack = m.get .stack + UInt32.ofNat (4 * n) ∧
      m'.get r = if n = 0 then m.get r else UInt32.ofNat (4 * n) := by
  unfold Code.release at *
  by_cases hn : n = 0
  · rw [if_pos hn] at *
    refine ⟨m, runs_refl ha h, ?_, (if_pos hn).symm⟩
    simp [hn]
  · rw [if_neg hn] at *
    obtain ⟨m₁, p₁, hv₁, _⟩ := runs_set hr hl ha hp h
    obtain ⟨m₂, p₂, hv₂, _⟩ := runs_combine .add Register.stack_ne_instruction
      (p₁.loaded_of_zero hl) p₁.position hp.tail h
    refine ⟨m₂, (p₁.mono (Int.le_refl 0) (by simp)).trans (p₂.mono (Int.le_refl 0) (by simp)), ?_, ?_⟩
    · rw [hv₂, hv₁, p₁.others .stack (by simpa using hrs.symm) Register.stack_ne_instruction]
    · rw [p₂.others r (by simpa using hrs) hr, hv₁, if_neg hn]

theorem runs_release (hr : r ≠ .instruction) (hrs : r ≠ .stack) (hl : m.Loaded program) (ha : m.At o)
    (hp : Placed labels program o (Code.release r n ++ rest)) (h : σ) :
    ∃ m', Runs 0 m h m' [r, .stack] o (o + extent (Code.release r n)) ∧
      m'.get .stack = m.get .stack + UInt32.ofNat (4 * n) := by
  obtain ⟨m', p, hs, _⟩ := runs_release_through hr hrs hl ha hp h
  exact ⟨m', p, hs⟩

theorem runs_reserve (hr : r ≠ .instruction) (hrs : r ≠ .stack) (hl : m.Loaded program) (ha : m.At o)
    (hp : Placed labels program o (Code.reserve r n ++ rest)) (h : σ) :
    ∃ m', Runs 0 m h m' [r, .stack] o (o + extent (Code.reserve r n)) ∧
      m'.get .stack = m.get .stack - UInt32.ofNat (4 * n) := by
  unfold Code.reserve at *
  by_cases hn : n = 0
  · rw [if_pos hn] at *
    refine ⟨m, runs_refl ha h, ?_⟩
    simp [hn]
  · rw [if_neg hn] at *
    obtain ⟨m₁, p₁, hv₁, _⟩ := runs_set hr hl ha hp h
    obtain ⟨m₂, p₂, hv₂, _⟩ := runs_combine .sub Register.stack_ne_instruction
      (p₁.loaded_of_zero hl) p₁.position hp.tail h
    refine ⟨m₂, (p₁.mono (Int.le_refl 0) (by simp)).trans (p₂.mono (Int.le_refl 0) (by simp)), ?_⟩
    rw [hv₂, hv₁, p₁.others .stack (by simpa using hrs.symm) Register.stack_ne_instruction]

end Machine

namespace Compiler

open Assembly Source Machine

/-! ### Sizes of lines -/

section

variable (r a b : Register) (l : Label) (n : Nat)

@[simp] theorem size_blank : Line.blank.size = 0 := rfl
@[simp] theorem size_label : (Code.label l).size = 0 := rfl
@[simp] theorem size_set : (Code.set r n).size = 6 := rfl
@[simp] theorem size_push : (Code.push r).size = 2 := rfl
@[simp] theorem size_pop : (Code.pop r).size = 2 := rfl
@[simp] theorem size_neg : (Code.neg r).size = 2 := rfl
@[simp] theorem size_not : (Code.not r).size = 2 := rfl
@[simp] theorem size_mov : (Code.mov a b).size = 3 := rfl
@[simp] theorem size_load : (Code.load a b).size = 3 := rfl
@[simp] theorem size_store : (Code.store a b).size = 3 := rfl
@[simp] theorem size_add : (Code.add a b).size = 3 := rfl
@[simp] theorem size_sub : (Code.sub a b).size = 3 := rfl
@[simp] theorem size_test : (Code.test r).size = 3 := rfl
@[simp] theorem size_call : (Code.call l).size = 5 := rfl
@[simp] theorem size_jmp : (Code.jmp l).size = 5 := rfl
@[simp] theorem size_jiz : (Code.jiz l).size = 5 := rfl
@[simp] theorem size_ret : Code.ret.size = 1 := rfl

end

/-! ### Moves -/

variable {fs : List Function} {program : List UInt8} {labels : Labels} {c : Caller fs program}
  {f : Frame} {env : Env} {ws : List Word} {w : Word} {o e k : Nat} {m : Machine} {q : WordQueue}
  {rest : Code} {r a b : Register} {x : String} {l : Label} {α : Type}
  {goal : Machine → α → Prop} {run : Run α}

namespace Framed

theorem of_eq (hF : Framed c f env ws o m) (h : e = o) : Framed c f env ws e m := h ▸ hF

theorem jumped (hF : Framed c f env ws o m) (hp : Placed labels program o (Code.jmp l :: rest))
    (hv : labels.get? l.text = some (UInt32.ofNat e)) (q : WordQueue) :
    ∃ m', Path Anywhere m q m' q ∧ Framed c f env ws e m' := by
  obtain ⟨m', p, hm⟩ := goes_jmp hF.loaded hF.position hp hv q
  exact ⟨m', p, hF.kept hm (by simp)⟩

theorem tested (hF : Framed c f env ws o m) (hr : r.General)
    (hp : Placed labels program o (Code.test r :: Code.jiz l :: rest))
    (hv : labels.get? l.text = some (UInt32.ofNat e)) (q : WordQueue) :
    ∃ m', Path Anywhere m q m' q ∧ Framed c f env ws (if m.get r = 0 then e else o + 8) m' := by
  obtain ⟨m', p, hm⟩ := goes_test hr hF.loaded hF.position hp hv q
  exact ⟨m', p, hF.kept hm (by simpa using hr.ne_stack.symm)⟩

theorem not_holds (hF : Framed c f env ws o m) (hx : f.top c.above < 4) :
    ¬m.memory.Holds (m.get .stack - 4) 4 := by
  have hlow := hF.low
  have hroom := hF.room
  have hsize := hF.size_eq
  rw [top_sub_four hF.stack, Memory.holds_ofInt_iff (by omega) (by omega) (by omega)]
  omega

theorem top_le (hF : Framed c f env ws o m) : f.top c.above ≤ m.memory.size := by
  have h := hF.above_le
  rw [Frame.top]
  omega

theorem follows_push (hF : Framed c f env ws o m)
    (hp : Placed labels program o (Code.push r :: rest))
    (hk : ∀ m₁, Framed c (f.push 1) env (m.get r :: ws) (o + 2) m₁ → 4 ≤ f.top c.above →
      Follows ((f.push 1).top c.above) m₁ q goal run) :
    Follows (f.top c.above) m q goal (.pushed 1 run) := by
  refine Follows.pushed (by decide) (fun hx => ?_) fun hx => ?_
  · have hx : 4 ≤ f.top c.above := by omega
    obtain ⟨m₁, p, hs, hword⟩ := runs_push hF.stack hx hF.top_le hF.loaded hF.position hp q
    rw [← Frame.top_push]
    exact (hk m₁ (hF.pushed p.toArrives hs hword) hx).after p.anywhere
  · exact starves_of_fault (step_push_fault hF.loaded hF.position hp (hF.not_holds (by omega)) q)

theorem popped (hF : Framed c (f.push 1) env (w :: ws) o m) (hr : r ≠ .instruction)
    (hrs : r ≠ .stack) (hp : Placed labels program o (Code.pop r :: rest)) (q : WordQueue) :
    ∃ m', Path Anywhere m q m' q ∧ Framed c f env ws (o + 2) m' ∧ m'.get r = w ∧
      ∀ a, a ≠ r → a ≠ .stack → a ≠ .instruction → m'.get a = m.get a := by
  have hword := hF.words 0 w rfl
  have hzero : (f.push 1).top c.above + 4 * ((0 : Nat) : Int) = (f.push 1).top c.above := by omega
  rw [hzero] at hword
  obtain ⟨m', p, hv, hs⟩ := runs_pop hF.stack hword hr hrs hF.loaded hF.position hp q
  have htop : (f.push 1).top c.above + 4 = f.top c.above := by
    rw [Frame.top_push]
    omega
  rw [htop] at hs
  refine ⟨m', p.anywhere, ?_, hv, fun a h₁ h₂ h₃ => p.others a (by simp [h₁, h₂]) h₃⟩
  have hF' : Framed c (f.push 1) env ([w] ++ ws) o m := hF
  refine hF'.dropped rfl p.position p.programOffset ?_ hs
  rw [p.memory]
  exact .refl _ _

theorem loaded_top (hF : Framed c f env (w :: ws) o m) (hr : r ≠ .instruction)
    (hp : Placed labels program o (Code.load r .stack :: rest)) (q : WordQueue) :
    ∃ m', Runs 0 m q m' [r] o (o + 3) ∧ m'.get r = w := by
  have hword := hF.words 0 w rfl
  have hzero : f.top c.above + 4 * ((0 : Nat) : Int) = f.top c.above := by omega
  rw [hzero] at hword
  obtain ⟨m', p, hv, _⟩ := runs_load hr hF.loaded hF.position hp (holds_top hF.stack hword) q
  refine ⟨m', p, ?_⟩
  rw [hv, hF.stack, Memory.read_of_word? hword]

theorem holds_slot (hF : Framed c f env ws o m) (hk : f.offset? x = some k) (hx : 0 ≤ f.top c.above) :
    m.memory.Holds (m.slot k) 4 := by
  obtain ⟨_, _, hle⟩ := Frame.offset?_bounds hk
  have htop : f.top c.above = c.above - 4 * (f.parameters.length + 1 + f.depth) := rfl
  have habove := hF.above_le
  rw [hF.slot_eq]
  exact Memory.holds_ofInt (by omega) (by omega)

theorem stored (hF : Framed c f env ws o m) (hk : f.offset? x = some k) (hx : 0 ≤ f.top c.above)
    (ha : m.get a = m.slot k) (hp : Placed labels program o (Code.store a b :: rest)) (q : WordQueue) :
    ∃ m', Path Anywhere m q m' q ∧ Framed c f (env.set x (m.get b)) ws (o + 3) m' := by
  have hb : m.memory.Holds (m.get a) 4 := by
    rw [ha]
    exact hF.holds_slot hk hx
  refine ⟨_, .single trivial (step_store hF.loaded hF.position hp hb q),
    hF.assigned hk hx ?_ rfl ?_ ?_⟩
  · rw [Machine.At, get_deposit, if_pos rfl]
    rfl
  · rw [get_deposit, if_neg Register.stack_ne_instruction]
  · rw [memory_deposit, ha, hF.slot_eq]

theorem holds_variable (hF : Framed c f env ws o m) (hx : env x = some w) : ∃ k, f.offset? x = some k ∧
    m.memory.Holds (m.slot k) 4 ∧ m.memory.read (m.slot k) 4 = w := by
  obtain ⟨k, hk, hw⟩ := hF.values x w hx
  exact ⟨k, hk, read_slot hF.stack hw⟩

end Framed

end Compiler

end WordMachine
