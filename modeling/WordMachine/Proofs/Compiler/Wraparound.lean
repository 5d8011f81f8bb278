import WordMachine.Proofs.Compiler.Descents
import WordMachine.Proofs.Compiler.Tracing
import WordMachine.Proofs.Machine.Installation

/-!
# A stack that comes round

If the frames of a program that calls deep take all addresses but one word, the last of them comes round
to the upper end of the stack, and nothing fails. What is pushed there overwrites a word of the first
caller: an argument that waits for its call there is another one by then (`argument_overwritten`). When the
calls have returned, the stack ends where it ended before.
-/

namespace WordMachine

theorem Memory.spares_write {m : Memory} {x a floor : Int} (v : Word) (h0 : 0 ≤ a)
    (ha : a + 4 ≤ m.size) (hf : floor ≤ a) : Spares x floor m (m.write (Word.ofInt a) 4 v) := by
  have hn := toNat_ofInt_of_holds h0 ha
  exact ⟨size_write .., fun i _ hi => getElem?_write_outside _ _ _ _ (by omega)⟩

namespace Compiler

open Assembly Machine Code

variable {σ : Type} [Host σ] {labels : Labels} {program : List UInt8} {m m' m₁ m₂ : Machine} {o e : Nat}
  {s y start : Int} {w back : Word} {rest : Code} {locals n : Nat}

/-! ### Where the stack ends -/

/-- The program lies in memory from one address on, and the stack ends at another. -/
structure Topped (program : List UInt8) (start y : Int) (m : Machine) : Prop where
  loaded : m.Loaded program
  start_eq : m.programOffset.toNat = start
  stack : m.get .stack = Word.ofInt y

namespace Topped

variable {x z : Int} {rs : List Register} {r : Register} {l : Label}

theorem size_eq (T : Topped program start y m) : (m.memory.size : Int) = start + program.length := by
  have hsize := T.loaded.size_eq
  have hstart := T.start_eq
  omega

theorem nonneg (T : Topped program start y m) : 0 ≤ start := T.start_eq ▸ Int.natCast_nonneg _

theorem absolute_eq (T : Topped program start y m) (T' : Topped program start z m') (o : Word) :
    m'.absolute o = m.absolute o := by
  have hstart := T'.start_eq.trans T.start_eq.symm
  rw [absolute, absolute, UInt32.toNat_inj.1 (Int.ofNat_inj.1 hstart)]

theorem of_eq (T : Topped program start y m) (h : y = z) : Topped program start z m := h ▸ T

/-- An address below the lower end of memory is one at the upper end of the words. -/
theorem round_iff (h : z = y + 4294967296) : Topped program start z m ↔ Topped program start y m := by
  have hword : Word.ofInt z = Word.ofInt y := by
    rw [h, Word.ofInt_add]
    exact UInt32.add_zero _
  exact ⟨fun T => ⟨T.loaded, T.start_eq, T.stack.trans hword⟩,
    fun T => ⟨T.loaded, T.start_eq, T.stack.trans hword.symm⟩⟩

theorem moved (T : Topped program start y m) (a : Arrives x m m' rs o) (hx : x ≤ start)
    (hs : m'.get .stack = Word.ofInt z) : Topped program start z m' where
  loaded := a.loaded (by rwa [T.start_eq]) T.loaded
  start_eq := by rw [a.programOffset, T.start_eq]
  stack := hs

theorem kept (T : Topped program start y m) (a : Arrives 0 m m' rs o) (hr : .stack ∉ rs) :
    Topped program start y m' :=
  T.moved a T.nonneg
    ((a.others .stack hr Register.stack_ne_instruction).trans T.stack)

theorem pushed (T : Topped program start y m) (h4 : 4 ≤ y) (hy : y ≤ start) (w : Word) (o : Nat) :
    Arrives y m (m.pushed w (m.absolute (UInt32.ofNat o))) [.stack] o ∧
      Topped program start (y - 4) (m.pushed w (m.absolute (UInt32.ofNat o))) ∧
      (m.pushed w (m.absolute (UInt32.ofNat o))).memory.word? (y - 4) = some w ∧
      Memory.Spares 0 (y - 4) m.memory (m.pushed w (m.absolute (UInt32.ofNat o))).memory := by
  have hsize := T.size_eq
  obtain ⟨a, hs, hw⟩ := arrives_pushed T.stack h4 (by omega) w o
  refine ⟨a, T.moved a hy hs, hw, ?_⟩
  rw [memory_pushed, top_sub_four T.stack]
  exact Memory.spares_write _ (by omega) (by omega) (Int.le_refl _)

theorem pushes (T : Topped program start y m) (hp : Placed labels program o (push r :: rest))
    (ha : m.At o) (h4 : 4 ≤ y) (hy : y ≤ start) (h : σ) :
    ∃ m', m.step h = (m', h, .running) ∧ Arrives y m m' [.stack] (o + 2) ∧
      Topped program start (y - 4) m' ∧ m'.memory.word? (y - 4) = some (m.get r) ∧
      Memory.Spares 0 (y - 4) m.memory m'.memory := by
  have hsize := T.size_eq
  have hb := holds_below T.stack h4 (by omega)
  exact ⟨_, step_push T.loaded ha hp hb h, T.pushed h4 hy _ _⟩

theorem calls (T : Topped program start y m) (hp : Placed labels program o (call l :: rest))
    (ha : m.At o) (hv : labels.get? l.text = some (UInt32.ofNat e)) (h4 : 4 ≤ y) (hy : y ≤ start) (h : σ) :
    ∃ m', m.step h = (m', h, .running) ∧ Arrives y m m' [.stack] e ∧ Topped program start (y - 4) m' ∧
      m'.memory.word? (y - 4) = some (m.absolute (UInt32.ofNat (o + 5))) ∧
      Memory.Spares 0 (y - 4) m.memory m'.memory := by
  have hsize := T.size_eq
  have hb := holds_below T.stack h4 (by omega)
  exact ⟨_, step_call T.loaded ha hp hv hb h, T.pushed h4 hy _ _⟩

theorem releases {k : Nat} (T : Topped program start y m)
    (hp : Placed labels program o (release r k ++ rest)) (ha : m.At o) (hr : r ≠ .instruction)
    (hrs : r ≠ .stack) (h : σ) :
    ∃ m', Runs 0 m h m' [r, .stack] o (o + extent (release r k)) ∧
      Topped program start (y + 4 * k) m' := by
  obtain ⟨m', p, hs⟩ := runs_release hr hrs T.loaded ha hp h
  refine ⟨m', p, T.moved p.toArrives T.nonneg ?_⟩
  rw [hs, T.stack, ← Word.ofInt_natCast, ← Word.ofInt_add]
  congr 1

theorem returns (T : Topped program start y m) (hp : Placed labels program o (ret :: rest))
    (ha : m.At o) (hw : m.memory.word? y = some back) (h : σ) :
    ∃ m', Path Anywhere m h m' h ∧ m'.get .instruction = back ∧ Topped program start (y + 4) m' ∧
      m'.memory = m.memory := by
  obtain ⟨m', p, hi, hs, hm, hpo, _⟩ := goes_ret T.loaded ha hp T.stack hw h
  have hl := T.loaded.of_agree (x := 0) (hm ▸ .refl _ _) (Int.natCast_nonneg _) hpo
  exact ⟨m', p, hi, ⟨hl, by rw [hpo, T.start_eq], hs⟩, hm⟩

end Topped

/-! ### Stretches of the function -/

/-- The function reserves its local variables and looks at its argument. -/
theorem goes_entering (hlocals : 0 < locals) (hp : Placed labels program o (entering locals ++ rest))
    (hother : labels.get? (Label.otherwise 0).text = some (UInt32.ofNat e))
    (T : Topped program start s m) (ha : m.At o) (hw : m.memory.word? (s + 4) = some w) (h : σ) :
    ∃ m', Path Anywhere m h m' h ∧
      Arrives 0 m m' [frameSize, .stack, ifCondition] (if w = 0 then e else o + 29) ∧
      Topped program start (s - 4 * locals) m' := by
  simp only [entering, List.cons_append, List.append_assoc] at hp
  have hreserve : Placed labels program o (reserve frameSize locals ++ _) := hp.2
  obtain ⟨m₁, p₁, g₁⟩ := runs_reserve (by decide) (by decide) T.loaded ha hreserve h
  have hs₁ : m₁.get .stack = Word.ofInt (s - 4 * locals) := by
    rw [g₁, T.stack, ← Word.ofInt_natCast, ← Word.ofInt_sub]
    congr 1
  have T₁ := T.moved p₁.toArrives T.nonneg hs₁
  have hw₁ : m₁.memory.word? (s - 4 * locals + 4 * (locals + 1 : Nat)) = some w := by
    rw [p₁.memory, ← hw]
    congr 1
    omega
  have hp₁ := hreserve.right
  obtain ⟨hb, hread⟩ := read_slot hs₁ hw₁
  obtain ⟨m₂, p₂, g₂⟩ := runs_valueAt (by decide) T₁.loaded p₁.position hp₁ hb h
  have T₂ := T₁.kept p₂.toArrives (by decide)
  obtain ⟨m₃, p₃, a₃⟩ := goes_test (by decide) T₂.loaded p₂.position hp₁.right hother h
  have hoffset : o + extent (reserve frameSize locals) + extent (valueAt (locals + 1) ifCondition) + 8 =
      o + 29 := by
    simp [reserve, valueAt, addressAt, Nat.ne_of_gt hlocals]
  rw [g₂, hread, hoffset] at a₃
  refine ⟨m₃, (p₁.anywhere.trans p₂.anywhere).trans p₃, ?_, T₂.kept a₃ (by decide)⟩
  exact ((p₁.toArrives.mono (Int.le_refl 0) (by simp)).trans
    (p₂.toArrives.mono (Int.le_refl 0) (by simp))).trans (a₃.mono (Int.le_refl 0) (by simp))

/-- The argument less one is left in the scratch register. -/
theorem goes_lessening (hp : Placed labels program o (lessening locals ++ rest))
    (T : Topped program start y m) (ha : m.At o) (h4 : 4 ≤ y) (hy : y ≤ start)
    (hw : m.memory.word? (y + 4 * (locals + 1)) = some (UInt32.ofNat (n + 1))) (h : σ) :
    ∃ m', Path Anywhere m h m' h ∧ Arrives y m m' [⟨1⟩, ⟨2⟩, .stack] (o + 25) ∧
      Topped program start y m' ∧ m'.get ⟨1⟩ = UInt32.ofNat n := by
  simp only [lessening, List.cons_append, List.append_assoc, List.nil_append] at hp
  obtain ⟨m₁, p₁, g₁, _⟩ := runs_set (by decide) T.loaded ha hp h
  have T₁ := T.kept p₁.toArrives (by decide)
  obtain ⟨m₂, p₂, a₂, T₂, hw₂, _⟩ := T₁.pushes hp.tail p₁.position h4 hy h
  have hp₂ := hp.tail.tail
  have harg : m₂.memory.word? (y - 4 + 4 * (locals + 2 : Nat)) = some (UInt32.ofNat (n + 1)) := by
    rw [a₂.agree.word? (by omega), p₁.memory, ← hw]
    congr 1
    omega
  obtain ⟨hb, hread⟩ := read_slot T₂.stack harg
  obtain ⟨m₃, p₃, g₃⟩ := runs_valueAt (by decide) T₂.loaded a₂.position hp₂ hb h
  have T₃ := T₂.kept p₃.toArrives (by decide)
  rw [← p₃.memory] at hw₂
  have hp₃ := hp₂.right
  obtain ⟨m₄, p₄, g₄, hs₄⟩ :=
    runs_pop T₃.stack hw₂ (by decide) (by decide) T₃.loaded p₃.position hp₃ h
  have T₄ := T₃.moved p₄.toArrives (by omega) hs₄
  obtain ⟨m₅, p₅, g₅, _⟩ := runs_combine .sub (by decide) T₄.loaded p₄.position hp₃.tail h
  refine ⟨m₅, (((p₁.anywhere.trans (.single trivial p₂)).trans p₃.anywhere).trans p₄.anywhere).trans
    p₅.anywhere, ?_, (T₄.kept p₅.toArrives (by decide)).of_eq (by omega), ?_⟩
  · exact ((((p₁.toArrives.mono (by omega) (by decide)).trans (a₂.mono (Int.le_refl y) (by decide))).trans
      (p₃.toArrives.mono (by omega) (by decide))).trans (p₄.toArrives.mono (by omega) (by decide))).trans
      (p₅.toArrives.mono (by omega) (by decide))
  · rw [g₅, p₄.others ⟨1⟩ (by decide) (by decide), g₃, hread, g₄, g₁, UInt32.ofNat_add]
    exact UInt32.add_sub_cancel _ _

/-- In the last call a word is pushed, and a return address below it. -/
theorem goes_turning {v : Nat} (hp : Placed labels program o (turning ++ rest))
    (hentry : labels.get? (Label.function ⟨"g", 1⟩).text = some (UInt32.ofNat v))
    (hret : Placed labels program v [ret]) (T : Topped program start y m) (ha : m.At o) (h8 : 8 ≤ y)
    (hy : y ≤ start) (h : σ) :
    ∃ m', Path Anywhere m h m' h ∧ m'.At (o + 22) ∧ Topped program start y m' ∧
      m'.memory.word? (y - 4) = some 66 ∧ Memory.Spares 0 (y - 8) m.memory m'.memory := by
  simp only [turning, List.cons_append] at hp
  obtain ⟨m₁, p₁, g₁, _⟩ := runs_set (by decide) T.loaded ha hp.2 h
  have T₁ := T.kept p₁.toArrives (by decide)
  obtain ⟨m₂, p₂, a₂, T₂, hw₂, s₂⟩ := T₁.pushes hp.2.tail p₁.position (by omega) hy h
  obtain ⟨m₃, p₃, a₃, T₃, hw₃, s₃⟩ :=
    T₂.calls hp.2.tail.tail a₂.position hentry (by omega) (by omega) h
  obtain ⟨m₄, p₄, hi₄, T₄, hm₄⟩ := T₃.returns hret a₃.position hw₃ h
  have ha₄ : m₄.At (o + 13) := by
    rw [At, hi₄, T₂.absolute_eq T₄]
    rfl
  have hrelease : Placed labels program (o + 13) (release .result 1 ++ rest) := hp.2.tail.tail.tail
  obtain ⟨m₅, p₅, T₅⟩ := T₄.releases hrelease ha₄ (by decide) (by decide) h
  have hmem : m₅.memory = m₃.memory := p₅.memory.trans hm₄
  refine ⟨m₅, ?_, p₅.position, T₅.of_eq (by omega), ?_, ?_⟩
  · exact (((p₁.anywhere.trans (.single trivial p₂)).trans (.single trivial p₃)).trans p₄).trans
      p₅.anywhere
  · rw [hmem, a₃.agree.word? (Int.le_refl _), hw₂, g₁]
    rfl
  · rw [hmem, ← p₁.memory]
    exact (s₂.lower (by omega)).trans (s₃.lower (by omega))

/-- The function takes its local variables from the stack and returns. -/
theorem goes_leaving (hp : Placed labels program o (leaving locals ++ rest))
    (T : Topped program start (s - 4 * locals) m) (ha : m.At o) (hw : m.memory.word? s = some back)
    (h : σ) :
    ∃ m', Path Anywhere m h m' h ∧ m'.get .instruction = back ∧ Topped program start (s + 4) m' ∧
      m'.memory = m.memory := by
  simp only [leaving, List.cons_append, List.append_assoc] at hp
  obtain ⟨m₁, p₁, T₁⟩ := T.releases hp.2 ha (by decide) (by decide) h
  rw [← p₁.memory] at hw
  obtain ⟨m₂, p₂, hi, T₂, hm⟩ := (T₁.of_eq (by omega)).returns hp.2.right p₁.position hw h
  exact ⟨m₂, p₁.anywhere.trans p₂, hi, T₂, hm.trans p₁.memory⟩

/-! ### Levels -/

/-- The function has been called with this argument, and its stack ends at this address. -/
structure Plunges (program : List UInt8) (start s : Int) (argument : Nat) (back : Word) (m : Machine) :
    Prop extends Topped program start s m where
  position : m.At 58
  back : m.memory.word? s = some back
  argument : m.memory.word? (s + 4) = some (UInt32.ofNat argument)

/-- The function has returned. Just below the return address of `main` there is a word that the last call
has pushed, and between that and the argument nothing has changed. -/
structure Surfaces (program : List UInt8) (h : σ) (start s : Int) (back : Word) (m m' : Machine) :
    Prop extends Topped program start (s + 4) m' where
  path : Path Anywhere m h m' h
  position : m'.get .instruction = back
  spares : Memory.Spares (s + 4) (start - 12) m.memory m'.memory
  overwritten : m'.memory.word? (start - 8) = some 66

/-- The functions that call each other lie in the program. -/
structure Dives (labels : Labels) (program : List UInt8) (locals : Nat) : Prop where
  positive : 0 < locals
  placed : Placed labels program 58 (diverCode locals)
  idler : Placed labels program 57 [ret]
  entry : labels.get? (Label.function ⟨"g", 1⟩).text = some (UInt32.ofNat 57)

namespace Dives

theorem lessening (D : Dives labels program locals) : Placed labels program 87
    (lessening locals ++ (descending ++ (turning ++ leaving locals))) := by
  have hp := D.placed.right
  rwa [extent_entering D.positive] at hp

theorem descending (D : Dives labels program locals) :
    Placed labels program 112 (descending ++ (turning ++ leaving locals)) := by
  have hp := D.lessening.right
  rwa [extent_lessening] at hp

theorem turning (D : Dives labels program locals) :
    Placed labels program 133 (turning ++ leaving locals) := D.descending.right

theorem leaving (D : Dives labels program locals) :
    Placed labels program 155 (leaving locals ++ []) := by
  rw [List.append_nil]
  exact D.turning.right

end Dives

/-- In the last call the stack comes round to the program. -/
theorem Plunges.turns (D : Dives labels program locals)
    (hother : labels.get? (Label.otherwise 0).text = some (UInt32.ofNat 133))
    (hm : Plunges program start s 0 back m) (h0 : 0 ≤ s)
    (hs : s + 4294967296 = start - 4 + 4 * locals) (hstart : s + 16 ≤ start) (h : σ) :
    ∃ m', Surfaces program h start s back m m' := by
  obtain ⟨m₁, p₁, a₁, T₁⟩ :=
    goes_entering D.positive D.placed hother hm.toTopped hm.position hm.argument h
  have hround : start - 4 = s - 4 * locals + 4294967296 := by omega
  obtain ⟨m₂, p₂, ha₂, T₂, h66, hspares⟩ := goes_turning D.turning D.entry D.idler
    ((Topped.round_iff hround).2 T₁) a₁.position (by omega) (by omega) h
  have hfloor : start - 4 - 8 = start - 12 := by omega
  have hplace : start - 4 - 4 = start - 8 := by omega
  rw [hfloor, a₁.memory] at hspares
  rw [hplace] at h66
  have hback₂ : m₂.memory.word? s = some back := by
    rw [hspares.word? h0 (by omega), hm.back]
  obtain ⟨m₃, p₃, hi₃, T₃, hm₃⟩ := goes_leaving D.leaving ((Topped.round_iff hround).1 T₂) ha₂ hback₂ h
  refine ⟨m₃, T₃, (p₁.trans p₂).trans p₃, hi₃, ?_, by rw [hm₃]; exact h66⟩
  rw [hm₃]
  exact hspares.mono (by omega)

/-- A call whose argument is not zero makes another one, which lies below it. -/
theorem Plunges.plunges (D : Dives labels program locals)
    (hm : Plunges program start s (n + 1) back m) (hn : n + 1 < 4294967296)
    (hs : 4 * locals + 8 ≤ s) (hstart : s ≤ start) (h : σ) :
    ∃ m', Path Anywhere m h m' h ∧
      Plunges program start (s - (4 * locals + 8)) n (m.absolute (UInt32.ofNat 119)) m' ∧
      m.memory.AgreeFrom m'.memory s := by
  have hne : UInt32.ofNat (n + 1) ≠ 0 := by
    intro he
    have hnat := Word.toNat_ofNat_of_lt hn
    rw [he] at hnat
    cases hnat
  have hother : labels.get? (Label.otherwise 0).text = some (UInt32.ofNat 133) := D.turning.1
  obtain ⟨m₁, p₁, a₁, T₁⟩ :=
    goes_entering D.positive D.placed hother hm.toTopped hm.position hm.argument h
  rw [if_neg hne] at a₁
  have harg : m₁.memory.word? (s - 4 * locals + 4 * (locals + 1)) = some (UInt32.ofNat (n + 1)) := by
    rw [a₁.memory, ← hm.argument]
    congr 1
    omega
  obtain ⟨m₂, p₂, a₂, T₂, hv₂⟩ :=
    goes_lessening D.lessening T₁ a₁.position (by omega) (by omega) harg h
  obtain ⟨m₃, p₃, a₃, T₃, hw₃, _⟩ := T₂.pushes D.descending a₂.position (by omega) (by omega) h
  obtain ⟨m₄, p₄, a₄, T₄, hw₄, _⟩ :=
    T₃.calls D.descending.tail a₃.position D.placed.1 (by omega) (by omega) h
  rw [hm.absolute_eq T₃] at hw₄
  have htop : s - 4 * locals - 4 - 4 = s - (4 * locals + 8) := by omega
  have hword : s - 4 * locals - 4 = s - (4 * locals + 8) + 4 := by omega
  refine ⟨m₄, ((p₁.trans p₂).trans (.single trivial p₃)).trans (.single trivial p₄), ?_, ?_⟩
  · refine ⟨T₄.of_eq htop, a₄.position, htop ▸ hw₄, ?_⟩
    rw [← hword, a₄.agree.word? (Int.le_refl _), hw₃, hv₂]
  · rw [← a₁.memory]
    exact ((a₂.agree.trans (a₃.agree.mono (by omega))).trans (a₄.agree.mono (by omega))).mono (by omega)

/-- When the call below has returned, so does this one. -/
theorem Plunges.surfaces (D : Dives labels program locals) (hm : Plunges program start s n back m)
    (hstart : s + 16 ≤ start) {h : σ} (p : Path Anywhere m h m₁ h)
    (hagree : m.memory.AgreeFrom m₁.memory s)
    (S : Surfaces program h start (s - (4 * locals + 8)) (m.absolute (UInt32.ofNat 119)) m₁ m₂) :
    ∃ m', Surfaces program h start s back m m' := by
  have ha₂ : m₂.At 119 := by
    rw [At, S.position, hm.absolute_eq S.toTopped]
  have hrelease : Placed labels program 119 (release .result 1 ++
      (jmp (.endIf 0) :: (turning ++ leaving locals))) := D.descending.tail.tail
  obtain ⟨m₃, p₃, T₃⟩ := S.releases hrelease ha₂ (by decide) (by decide) h
  have hendIf : labels.get? (Label.endIf 0).text = some (UInt32.ofNat 155) := D.leaving.1
  obtain ⟨m₄, p₄, a₄⟩ := goes_jmp T₃.loaded p₃.position hrelease.right hendIf h
  have T₄ := (T₃.kept a₄ (by decide)).of_eq (z := s - 4 * locals) (by omega)
  have hmem₄ : m₄.memory = m₂.memory := a₄.memory.trans p₃.memory
  have hspares : Memory.Spares s (start - 12) m.memory m₂.memory :=
    (Memory.Spares.of_agree hagree).trans (S.spares.mono (by omega))
  have hback : m₄.memory.word? s = some back := by
    rw [hmem₄, hspares.word? (Int.le_refl s) (by omega), hm.back]
  obtain ⟨m₅, p₅, hi₅, T₅, hm₅⟩ := goes_leaving D.leaving T₄ a₄.position hback h
  refine ⟨m₅, T₅, (((p.trans S.path).trans p₃.anywhere).trans p₄).trans p₅, hi₅, ?_, ?_⟩
  · rw [hm₅, hmem₄]
    exact hspares.mono (by omega)
  · rw [hm₅, hmem₄, S.overwritten]

/-- However deep the calls go, if the lowest one comes round to the program, they all return. -/
theorem Plunges.exists_surfaces (D : Dives labels program locals)
    (hm : Plunges program start s n back m) (hn : n < 4294967296) (h0 : (4 * locals + 8) * n ≤ s)
    (hs : s + 4294967296 = start - 4 + 4 * locals + (4 * locals + 8) * n) (hstart : s + 16 ≤ start)
    (h : σ) : ∃ m', Surfaces program h start s back m m' := by
  induction n generalizing m s back with
  | zero => exact hm.turns D D.turning.1 (by omega) (by omega) hstart h
  | succ n ih =>
    have hmul : (4 * (locals : Int) + 8) * ((n + 1 : Nat) : Int) =
        (4 * locals + 8) * n + (4 * locals + 8) := by
      rw [Int.natCast_succ, Int.mul_add, Int.mul_one]
    have hpos : 0 ≤ (4 * (locals : Int) + 8) * n := Int.mul_nonneg (by omega) (by omega)
    obtain ⟨m₁, p₁, hm₁, hagree⟩ := hm.plunges D hn (by omega) (by omega) h
    obtain ⟨m₂, S⟩ := ih hm₁ (by omega) (by omega) (by omega) (by omega)
    exact hm.surfaces D hstart p₁ hagree S

/-! ### The whole program -/

variable {depth : Word} {size : Nat}

theorem placed_descent (hlocals : 0 < locals) (hp : Placed labels program 0 (descentCode locals depth)) :
    Placed labels program 28 printerCode ∧ Dives labels program locals ∧
      Placed labels program 165 (descentMainCode depth ++ [label .programEnd]) := by
  have hprinter : Placed labels program 28 _ := hp.right
  have hidler : Placed labels program 57 _ := hprinter.right
  have hdiver : Placed labels program 58 _ := hidler.right
  have hmain := hdiver.right
  rw [extent_diverCode hlocals] at hmain
  exact ⟨hprinter.left, ⟨hlocals, hdiver.left, hidler.left.2, hidler.left.1⟩, hmain⟩

/-- The program pushes 65 for the first argument, and calls for the second. -/
theorem pushes_first (hlocals : 0 < locals) (hp : Placed labels program 0 (descentCode locals depth))
    (hm : Installed size program m) (hstart : start + program.length = size) (h16 : 16 ≤ start) (h : σ) :
    ∃ m₁ m₂, Path Anywhere m h m₁ h ∧ m₁.At 171 ∧ m₁.get ⟨1⟩ = 65 ∧
      m₁.get .stack = Word.ofInt (start - 4) ∧ Path Anywhere m₁ h m₂ h ∧
      Plunges program start (start - 16) depth.toNat (m₂.absolute (UInt32.ofNat 186)) m₂ := by
  obtain ⟨_, D, hmain⟩ := placed_descent hlocals hp
  have hsize := hm.size_eq
  have hloaded := hm.loaded.size_eq
  have heq : m.programOffset.toNat = start := by omega
  have T : Topped program start start m := ⟨hm.loaded, heq, by rw [hm.stack, ← heq, Word.ofInt_toNat]⟩
  obtain ⟨m₁, p₁, a₁, T₁, _⟩ := T.calls hp hm.position hmain.1 (by omega) (Int.le_refl _) h
  obtain ⟨m₂, p₂, g₂, _⟩ := runs_set (by decide) T₁.loaded a₁.position hmain.2 h
  have T₂ := T₁.kept p₂.toArrives (by decide)
  obtain ⟨m₃, p₃, a₃, T₃, _⟩ := T₂.pushes hmain.2.tail p₂.position (by omega) (by omega) h
  obtain ⟨m₄, p₄, g₄, _⟩ := runs_set (by decide) T₃.loaded a₃.position hmain.2.tail.tail h
  have T₄ := T₃.kept p₄.toArrives (by decide)
  obtain ⟨m₅, p₅, a₅, T₅, hw₅, _⟩ :=
    T₄.pushes hmain.2.tail.tail.tail p₄.position (by omega) (by omega) h
  obtain ⟨m₆, p₆, a₆, T₆, hw₆, _⟩ := T₅.calls hmain.2.tail.tail.tail.tail a₅.position D.placed.1
    (by omega) (by omega) h
  have htop : start - 4 - 4 - 4 - 4 = start - 16 := by omega
  have hword : start - 4 - 4 - 4 = start - 16 + 4 := by omega
  refine ⟨m₂, m₆, (Path.single trivial p₁).trans p₂.anywhere, p₂.position, g₂, T₂.stack,
    (((Path.single trivial p₃).trans p₄.anywhere).trans (.single trivial p₅)).trans
      (.single trivial p₆), T₆.of_eq htop, a₆.position, ?_, ?_⟩
  · rw [← htop, T₅.absolute_eq T₆]
    exact hw₆
  · rw [← hword, a₆.agree.word? (Int.le_refl _), hw₅, g₄]

/-- The second argument is pushed, and the function is called that has waited for both. -/
theorem calls_printer (hlocals : 0 < locals) (hp : Placed labels program 0 (descentCode locals depth))
    (h16 : 16 ≤ start) {h : σ}
    (hm : Plunges program start (start - 16) n (m.absolute (UInt32.ofNat 186)) m)
    (S : Surfaces program h start (start - 16) (m.absolute (UInt32.ofNat 186)) m m₁) :
    ∃ m₂ m₃, Path Anywhere m₁ h m₂ h ∧ m₂.At 200 ∧ m₂.step h = (m₃, h, .running) ∧
      m₃.get .stack = Word.ofInt (start - 16) ∧ m₃.memory.word? (start - 8) = some 66 := by
  obtain ⟨hprinter, _, hmain⟩ := placed_descent hlocals hp
  have ha : m₁.At 186 := by
    rw [At, S.position, hm.absolute_eq S.toTopped]
  have hp₁ : Placed labels program 186 (mov ⟨1⟩ .result :: (release .result 1 ++
      (push ⟨1⟩ :: call (.function ⟨"f", 2⟩) :: (release .result 2 ++ [ret, label .programEnd])))) :=
    hmain.2.tail.tail.tail.tail.tail
  obtain ⟨m₂, p₂, _, _⟩ := runs_mov (by decide) S.loaded ha hp₁ h
  obtain ⟨m₃, p₃, T₃⟩ := (S.kept p₂.toArrives (by decide)).releases hp₁.tail p₂.position (by decide)
    (by decide) h
  obtain ⟨m₄, p₄, a₄, T₄, _⟩ := T₃.pushes hp₁.tail.right p₃.position (by omega) (by omega) h
  obtain ⟨m₅, hstep, a₅, T₅, _⟩ :=
    T₄.calls hp₁.tail.right.tail a₄.position hprinter.1 (by omega) (by omega) h
  refine ⟨m₄, m₅, (p₂.anywhere.trans p₃.anywhere).trans (.single trivial p₄), a₄.position, hstep,
    (T₅.of_eq (by omega)).stack, ?_⟩
  rw [a₅.agree.word? (by omega), a₄.agree.word? (by omega), p₃.memory, p₂.memory, S.overwritten]

/-- The argument 65 that was pushed is 66 when the function is entered that it was pushed for, if the
frames of the calls between them take all addresses but one word. -/
theorem argument_overwritten (hlocals : 0 < locals)
    (hp : Placed labels program 0 (descentCode locals depth)) (hlen : program.length = 215)
    (hm : Installed size program m)
    (hframes : (4 * locals + 8) * (depth.toNat + 1) + 4 = 4294967296)
    (hsize : 4294967515 ≤ size + 4 * locals) (h : σ) :
    ∃ s k m₁ m₂ m₃, run s m h = (m₁, h, .running) ∧ m₁.At 171 ∧ m₁.get ⟨1⟩ = 65 ∧
      run k m₁ h = (m₂, h, .running) ∧ m₂.At 200 ∧ m₂.step h = (m₃, h, .running) ∧
      m₃.get .stack = m₁.get .stack - 12 ∧
      m₃.memory.read (m₃.get .stack + UInt32.ofNat (4 * 2)) 4 = 66 := by
  rw [Nat.mul_succ] at hframes
  have hcast : (4 * (locals : Int) + 8) * depth.toNat = ((4 * locals + 8) * depth.toNat : Nat) := by
    push_cast
    rfl
  obtain ⟨start, hstart⟩ : ∃ start : Int, start + program.length = size :=
    ⟨size - program.length, Int.sub_add_cancel _ _⟩
  obtain ⟨m₁, m₂, p₁, ha₁, hv₁, hs₁, p₂, hm₂⟩ := pushes_first hlocals hp hm hstart (by omega) h
  obtain ⟨_, D, _⟩ := placed_descent hlocals hp
  obtain ⟨m₃, S⟩ := hm₂.exists_surfaces D depth.toNat_lt (by omega) (by omega) (by omega) h
  obtain ⟨m₄, m₅, p₄, ha₄, hstep, hs₅, hw₅⟩ := calls_printer hlocals hp (by omega) hm₂ S
  obtain ⟨s, hr₁⟩ := p₁.run_running
  obtain ⟨k, hr₄⟩ := ((p₂.trans S.path).trans p₄).run_running
  refine ⟨s, k, m₁, m₄, m₅, hr₁, ha₁, hv₁, hr₄, ha₄, hstep, ?_, ?_⟩
  · have htwelve : Word.ofInt 12 = 12 := rfl
    rw [hs₅, hs₁, ← htwelve, ← Word.ofInt_sub]
    congr 1
    omega
  · have hplace : Word.ofInt (start - 16) + UInt32.ofNat (4 * 2) = Word.ofInt (start - 8) := by
      rw [← Word.ofInt_natCast, ← Word.ofInt_add]
      congr 1
      omega
    rw [hs₅, hplace]
    exact Memory.read_of_word? hw₅

end Compiler

end WordMachine
