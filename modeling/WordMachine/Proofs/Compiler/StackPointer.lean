import WordMachine.Proofs.Compiler.Integrity
import WordMachine.Proofs.Machine.Path
import WordMachine.Proofs.Machine.Transfer

/-!
# Where the stack pointer can go

In a compiled program that stores to variables alone the stack pointer is a whole number of words below
the start of the program. It goes past the lower end of memory only where a function reserves more
words for its local variables than are left: nothing is stored there, so that nothing fails.
-/

namespace WordMachine

namespace Machine

/-- If the next instruction moves the stack pointer down by a register, so many bytes are left. -/
def FrameFits (m : Machine) : Prop :=
  ∀ r, m.Fetches ⟨.sub, .regReg .stack r⟩ → m.get r ≤ m.get .stack

/-- What compiled code can do to the stack pointer. -/
inductive Moves (m : Machine) : Instruction Word → Prop
  | stay {i} : .stack ∉ i.written → Moves m i
  | push {i} : i.opcode = .push ∨ i.opcode = .call → Moves m i
  | pop {i} : i.opcode = .pop ∨ i.opcode = .ret → i.operands.first? ≠ some .stack → Moves m i
  | release {r} : (m.get .stack ≤ m.programOffset →
      (m.get .stack).toNat + (m.get r).toNat ≤ m.programOffset.toNat) →
      Moves m ⟨.add, .regReg .stack r⟩
  | reserve {r} : m.get r ≤ m.get .stack ∨ m.memory.size + (m.get r).toNat < 4294967296 →
      Moves m ⟨.sub, .regReg .stack r⟩

variable {m m' : Machine} {i : Instruction Word} {r : Register}

theorem frameFits_of_ne (hf : m.Fetches i) (hi : ∀ r, i ≠ ⟨.sub, .regReg .stack r⟩) :
    m.FrameFits := by
  intro r hr
  exact absurd (hf.unique hr) (hi r)

theorem frameFits_iff (hf : m.Fetches ⟨.sub, .regReg .stack r⟩) :
    m.FrameFits ↔ m.get r ≤ m.get .stack := by
  constructor
  · intro hfits
    exact hfits r hf
  · intro hle q hq
    cases hf.unique hq
    exact hle

variable {σ : Type} [Host σ] {h h' : σ}

/-- The stack pointer stays below the start of the program if it is there wherever it lies in memory,
unless too many words are reserved. -/
theorem Moves.le_iff (hm : m.Moves i) (hf : m.Fetches i) (hs : m.step h = (m', h', .running))
    (hstart : m.programOffset.toNat ≤ m.memory.size) (hle : m.get .stack ≤ m.programOffset)
    (hin : (m'.get .stack).toNat ≤ m.memory.size → m'.get .stack ≤ m.programOffset) :
    m'.get .stack ≤ m.programOffset ↔ m.FrameFits := by
  have he := hf.effect hs
  have hsize : m.memory.size < 4294967296 := m.memory.size_lt
  cases hm with
  | stay hw =>
    rw [he.others .stack Register.stack_ne_instruction hw]
    refine iff_of_true hle (frameFits_of_ne hf ?_)
    intro r hi
    subst hi
    exact hw (List.mem_singleton.2 rfl)
  | push ho =>
    -- a word was stored at the stack pointer, so that it lies in memory
    have hacc := hf.access_le hs (access?_of_push ho)
    rw [← he.pushed ho] at hacc
    refine iff_of_true (hin (by omega)) (frameFits_of_ne hf ?_)
    intro r hi
    subst hi
    rcases ho with ho | ho <;> cases ho
  | pop ho hr =>
    have hacc := hf.access_le hs (access?_of_pop ho)
    have hstack := he.popped ho fun v hv => hr (first?_of_result? hv)
    have hmem : (m'.get .stack).toNat ≤ m.memory.size := by
      rw [hstack, UInt32.toNat_add]
      exact Nat.le_trans (Nat.mod_le _ _) hacc
    refine iff_of_true (hin hmem) (frameFits_of_ne hf ?_)
    intro r hi
    subst hi
    rcases ho with ho | ho <;> cases ho
  | @release r hr =>
    have hsum := hr hle
    rw [he.result _ _ rfl Register.stack_ne_instruction]
    refine iff_of_true ?_ (frameFits_of_ne hf (by rintro _ ⟨⟩))
    rw [UInt32.le_iff_toNat_le, UInt32.toNat_add, Nat.mod_eq_of_lt (by omega)]
    exact hsum
  | @reserve r hr =>
    -- what does not fit comes round to an address past memory
    rw [UInt32.le_iff_toNat_le] at hle hr
    rw [he.result _ _ rfl Register.stack_ne_instruction, frameFits_iff hf, UInt32.le_iff_toNat_le,
      UInt32.le_iff_toNat_le, UInt32.toNat_sub]
    omega

end Machine

namespace Compiler

open Assembly Source Machine

variable {σ : Type} [Host σ] {I : Image} {p : Signature → Prop} {m m' : Machine} {h h' : σ} {b : Body}
  {base : Int} {s : Shape} {o : Nat} {rest : Code} {i : Instruction Value}

/-! ### A whole number of words -/

theorem Suspended.words {start : Word} {memory : Memory} {arity : Nat}
    (hs : Suspended I p start memory base arity) : ∃ n : Nat, base = start.toNat - 4 * n := by
  induction hs with
  | bottom => exact ⟨1, rfl⟩
  | @call _ _ w _ _ _ _ _ _ _ _ _ _ ih =>
    rcases ih with ⟨n, hn⟩
    refine ⟨n + w.length + 1, ?_⟩
    omega

theorem Intact.words (hi : Intact I p m) :
    ∃ n : Nat, m.get .stack = Word.ofInt (m.programOffset.toNat - 4 * n) := by
  have hstart (htop : m.get .stack = m.programOffset) :
      ∃ n : Nat, m.get .stack = Word.ofInt (m.programOffset.toNat - 4 * n) := by
    refine ⟨0, ?_⟩
    rw [htop, Int.natCast_zero, Int.mul_zero, Int.sub_zero, Word.ofInt_toNat]
  cases hi.phase with
  | starting _ htop => exact hstart htop
  | @active b base s o rest hA =>
    rcases hA.suspended.words with ⟨n, hn⟩
    refine ⟨n + s.words.length, ?_⟩
    rw [hA.stack, hn]
    congr 1
    omega
  | returned _ htop => exact hstart htop
  | finished _ htop => exact hstart htop

theorem Intact.four_dvd (hi : Intact I p m) : 4 ∣ (m.programOffset - m.get .stack).toNat := by
  rcases hi.words with ⟨n, hn⟩
  have hdiff : m.programOffset - m.get .stack = Word.ofInt (4 * n) := calc
    m.programOffset - m.get .stack
      = Word.ofInt m.programOffset.toNat - Word.ofInt (m.programOffset.toNat - 4 * n) := by
        rw [hn, Word.ofInt_toNat]
    _ = Word.ofInt (4 * n) := by
        rw [← Word.ofInt_sub]
        congr 1
        omega
  have hnat := Word.toNat_ofInt (4 * n)
  rw [hdiff]
  omega

/-! ### Inside the stack -/

theorem Active.stack_le_iff (hA : Active I p m b base s o rest) (hi : Intact I p m) :
    m.get .stack ≤ m.programOffset ↔ 0 ≤ base - 4 * (s.words.length : Int) := by
  have hlow := hA.low
  unfold Body.Low at hlow
  have hbound := hA.suspended.bounds
  have hstart := m.programOffset.toNat_lt
  have hsize := hi.loaded.size_eq
  have hi := hi.size
  rw [UInt32.le_iff_toNat_le, hA.stack]
  by_cases h0 : 0 ≤ base - 4 * (s.words.length : Int)
  · have hn := Word.toNat_ofInt_of_nonneg h0 (by omega)
    omega
  · have hn := Word.toNat_ofInt_of_neg (x := base - 4 * s.words.length) (by omega) (by omega)
    omega

/-- A stack pointer that lies in memory lies in the stack. -/
theorem Intact.stack_le (hi : Intact I p m) (hin : (m.get .stack).toNat ≤ m.memory.size) :
    m.get .stack ≤ m.programOffset := by
  cases hi.phase with
  | starting _ htop => exact UInt32.le_of_eq htop
  | @active b base s o rest hA =>
    have hlow := hA.low
    unfold Body.Low at hlow
    have hsize := hi.size
    rw [hA.stack_le_iff hi]
    by_cases h0 : 0 ≤ base - 4 * (s.words.length : Int)
    · exact h0
    · rw [hA.stack] at hin
      have hn := Word.toNat_ofInt_of_neg (x := base - 4 * s.words.length) (by omega) (by omega)
      omega
  | returned _ htop => exact UInt32.le_of_eq htop
  | finished _ htop => exact UInt32.le_of_eq htop

/-! ### What code does to the stack pointer -/

section

variable {labels : Labels} {program : List UInt8}

theorem moves_of_not_written (hl : m.Loaded program) (ha : m.At o)
    (hp : Placed labels program o (.instruction i :: rest)) (hs : .stack ∉ i.written) :
    ∃ j, m.Fetches j ∧ m.Moves j := by
  rcases exists_fetches hl ha hp with ⟨j, hj, hf⟩
  exact ⟨j, hf, .stay ((Instruction.written_of_traverse hj).1 ▸ hs)⟩

theorem moves_of_push (hl : m.Loaded program) (ha : m.At o)
    (hp : Placed labels program o (.instruction i :: rest)) (ho : i.opcode = .push ∨ i.opcode = .call) :
    ∃ j, m.Fetches j ∧ m.Moves j := by
  rcases exists_fetches hl ha hp with ⟨j, hj, hf⟩
  rw [← Instruction.opcode_of_traverse hj] at ho
  exact ⟨j, hf, .push ho⟩

end

/-- What a line can do to the stack pointer, from the shape of the stack that it is allowed at. -/
theorem Active.moves {line : Line} (hA : Active I p m b base s o (line :: rest)) (hi : Intact I p m)
    (hline : line = .instruction i) : ∃ j, m.Fetches j ∧ m.Moves j := by
  have hp := hA.position.placed hA.sound
  have hl := hi.loaded
  have hat := hA.pointer
  rcases hA.position.next with ⟨s₁, ha, _⟩
  cases ha with
  | blank | label | entry => cases hline
  | number hr _ | top hr _ | address hr _ | loadSlot hr _ =>
    exact moves_of_not_written hl hat hp
      (by simpa [Instruction.written, Operands.first?] using hr.symm)
  | store => exact moves_of_not_written hl hat hp (by simp [Instruction.written])
  | jump =>
    exact moves_of_not_written hl hat hp
      (by simpa [Instruction.written] using Register.stack_ne_instruction)
  | branch hb =>
    cases hb <;> exact moves_of_not_written hl hat hp
      (by simpa [Instruction.written] using Register.stack_ne_instruction)
  | quiet hq | keep hq => exact moves_of_not_written hl hat hp hq.stack
  | push | pushSlot => exact moves_of_push hl hat hp (.inl rfl)
  | call => exact moves_of_push hl hat hp (.inr rfl)
  | pop hr _ | popSlot hr _ =>
    rcases exists_fetches hl hat hp with ⟨_, ⟨⟩, hf⟩
    exact ⟨_, hf, .pop (.inl rfl) (by simpa [Operands.first?] using hr)⟩
  | ret =>
    rcases exists_fetches hl hat hp with ⟨_, ⟨⟩, hf⟩
    exact ⟨_, hf, .pop (.inr rfl) (by rintro ⟨⟩)⟩
  | @release top w r =>
    rcases exists_fetches hl hat hp with ⟨_, ⟨⟩, hf⟩
    refine ⟨_, hf, .release fun hle => ?_⟩
    have hr : m.get r = UInt32.ofNat (4 * top.length) := hA.known _ _ rfl
    have hstack : m.get .stack = Word.ofInt (base - 4 * (top ++ w).length) := hA.stack
    have h0 : 0 ≤ base - 4 * ((top ++ w).length : Int) := (hA.stack_le_iff hi).1 hle
    have hlen : (top ++ w).length = top.length + w.length := List.length_append
    have hbound := hA.suspended.bounds
    have hstart := m.programOffset.toNat_lt
    have hn := Word.toNat_ofInt_of_nonneg h0 (by omega)
    rw [hstack, hr, Word.toNat_ofNat_of_lt] <;> omega
  | @reserve r =>
    rcases exists_fetches hl hat hp with ⟨_, ⟨⟩, hf⟩
    refine ⟨_, hf, .reserve ?_⟩
    have hr : m.get r = UInt32.ofNat (4 * b.setting.locals) := hA.known _ _ rfl
    have hroom := hA.room
    unfold Body.Room at hroom
    have hsize := hi.size
    have htop : m.get .stack = Word.ofInt base := by
      rw [hA.top]
      congr 1
      exact Int.sub_zero _
    have hbound := hA.suspended.bounds
    have hstart := m.programOffset.toNat_lt
    have hn := Word.toNat_ofInt_of_nonneg hbound.1 (by omega)
    rw [UInt32.le_iff_toNat_le, hr, htop, Word.toNat_ofNat_of_lt] <;> omega

theorem Intact.moves (hI : I.Complete p) (hi : Intact I p m) :
    (∃ j, m.Fetches j ∧ m.Moves j) ∨ m.At I.program.length := by
  rcases hI.code with ⟨middle, hcode⟩
  have hp := hI.placed
  rw [hcode] at hp
  cases hi.phase with
  | starting ha _ => exact .inl (moves_of_push hi.loaded ha hp (.inr rfl))
  | active hA =>
    rcases hA.instruction with ⟨i, ls, k, hA⟩
    exact .inl (hA.moves hi rfl)
  | returned ha _ =>
    exact .inl (moves_of_not_written hi.loaded ha hp.tail
      (by simpa [Instruction.written] using Register.stack_ne_instruction))
  | finished ha _ => exact .inr ha

/-- A step keeps the stack pointer below the start of the program exactly if the frame that it may
reserve fits. -/
theorem Intact.stack_le_iff (hI : I.Complete p) (hi : Intact I p m)
    (hs : m.step h = (m', h', .running)) (hle : m.get .stack ≤ m.programOffset) :
    m'.get .stack ≤ m.programOffset ↔ m.FrameFits := by
  have hi' := hi.step hI trivial hs
  rcases hi.moves hI with ⟨j, hf, hm⟩ | hend
  · have he := hf.effect hs
    have hsize := hi.loaded.size_eq
    refine hm.le_iff hf hs (by omega) hle fun hin => ?_
    rw [← he.programOffset]
    rw [← he.size] at hin
    exact hi'.stack_le hin
  · rw [halts_of_end hi.loaded hend] at hs
    cases hs

/-! ### Runs -/

/-- The stack pointer of an intact machine that keeps running is a whole number of words below the start
of the program. -/
theorem Intact.four_dvd_of_run (hI : I.Complete p) (hi : Intact I p m) {n : Nat}
    (hr : Machine.run n m h = (m', h', .running)) :
    4 ∣ (m.programOffset - m'.get .stack).toNat := by
  induction n generalizing m h with
  | zero =>
    cases hr
    exact hi.four_dvd
  | succ n ih =>
    rcases exists_step_of_run hr with ⟨m₁, h₁, hs⟩
    rw [run_succ_of_running n hs] at hr
    rw [← programOffset_of_running hs]
    exact ih (hi.step hI trivial hs) hr

/-- It has been in the stack all the time exactly if every frame has fitted. -/
theorem Intact.stack_le_iff_of_run (hI : I.Complete p) (hi : Intact I p m)
    (hle : m.get .stack ≤ m.programOffset) {n : Nat}
    (hr : Machine.run n m h = (m', h', .running)) :
    (∀ k < n + 1, (Machine.run k m h).1.get .stack ≤ m.programOffset) ↔
      ∀ k < n, (Machine.run k m h).1.FrameFits := by
  induction n generalizing m h with
  | zero =>
    refine iff_of_true (fun k hk => ?_) (fun k hk => absurd hk (Nat.not_lt_zero k))
    rw [Nat.lt_one_iff.1 hk]
    exact hle
  | succ n ih =>
    rcases exists_step_of_run hr with ⟨m₁, h₁, hs⟩
    have hstep := hi.stack_le_iff hI hs hle
    rw [run_succ_of_running n hs] at hr
    rw [Nat.forall_lt_succ_left, and_iff_right (show (Machine.run 0 m h).1.get .stack ≤ _ from hle),
      Nat.forall_lt_succ_left (n := n) (p := fun k => (Machine.run k m h).1.FrameFits)]
    simp only [run_succ_of_running _ hs]
    -- with the first frame out of the stack, so is the stack pointer after the first step
    by_cases hfits : m.FrameFits
    · have hrest := ih (m := m₁) (h := h₁) (hi.step hI trivial hs)
      rw [programOffset_of_running hs] at hrest
      rw [hrest (hstep.2 hfits) hr]
      exact (and_iff_right hfits).symm
    · exact iff_of_false (fun hin => hfits (hstep.1 (hin 0 (Nat.succ_pos n))))
        (fun hall => hfits hall.1)

/-- However long a compiled program has run, if its assignments go to variables alone, the stack pointer
is a whole number of words below the start of the program. It has never left the stack exactly if every
frame that was reserved had room: all else that moves the stack pointer either keeps it in the stack or
fails. -/
theorem stack_pointer_in_stack {text : String} {fs : List Function} {code : Code}
    {program : List UInt8} {m₀ : Machine} (hp : parse text = .ok fs) (hc : compile text = .ok code)
    (ha : assemble (render code) = .ok program)
    (hdirect : ∀ f ∈ fs, Direct (Stmt.allTargets f.body)) (hm : m₀.install program = .ok m)
    (hroom : ∀ f ∈ fs, m₀.memory.size + 4 * f.locals.length < 4294967296) {n : Nat}
    (hr : run n m h = (m', h', .running)) :
    4 ∣ (m.programOffset - m'.get .stack).toNat ∧
    ((∀ k ≤ n, (run k m h).1.get .stack ≤ m.programOffset) ↔ ∀ k < n, (run k m h).1.FrameFits) := by
  rcases linked_of_compile hp hc ha with ⟨codes, labels, hlinked, _⟩
  have hI : (Image.ofCodes codes labels program m₀.memory.size).Complete (· ∈ defined fs) :=
    hlinked.complete hdirect hroom
  have hinst := Installed.of_install hm
  have hi : Intact (Image.ofCodes codes labels program m₀.memory.size) (· ∈ defined fs) m :=
    intact_of_installed rfl hinst
  refine ⟨hi.four_dvd_of_run hI hr, ?_⟩
  simp only [← Nat.lt_succ_iff]
  exact hi.stack_le_iff_of_run hI (UInt32.le_of_eq hinst.stack) hr

/-- In 65 bytes of memory the only frame fits exactly. -/
theorem stack_pointer_in_stack_exact : ∃ fs code program m,
    parse "DEF main() RETURN; a; END;" = .ok fs ∧ compile "DEF main() RETURN; a; END;" = .ok code ∧
    assemble (render code) = .ok program ∧ (Machine.empty 65).install program = .ok m ∧
    (run 7 m (WordQueue.ofWords [])).2.2 = .running ∧
    4 ∣ (m.programOffset - (run 7 m (WordQueue.ofWords [])).1.get .stack).toNat ∧
    ∀ k < 7, (run k m (WordQueue.ofWords [])).1.FrameFits := by
  have hruns : installs 65 "DEF main() RETURN; a; END;" (fun fs m => decide (
      (∀ f ∈ fs, Direct (Stmt.allTargets f.body) ∧ 65 + 4 * f.locals.length < 4294967296) ∧
      (run 7 m (WordQueue.ofWords [])).2.2 = .running ∧
      ∀ k ∈ List.range 8, (run k m (WordQueue.ofWords [])).1.get .stack ≤ m.programOffset)) =
        true := by decide +kernel
  rcases installed_of_installs hruns with ⟨fs, code, program, m, hp, hc, ha, hm, htest⟩
  rcases of_decide_eq_true htest with ⟨hsmall, hrun, hin⟩
  have hsize : (Machine.empty 65).memory.size = 65 := Memory.size_zeros 65
  have hr : run 7 m (WordQueue.ofWords []) = ((run 7 m (WordQueue.ofWords [])).1,
      (run 7 m (WordQueue.ofWords [])).2.1, .running) := by rw [← hrun]
  rcases stack_pointer_in_stack hp hc ha (fun f hf => (hsmall f hf).1) hm
    (fun f hf => hsize ▸ (hsmall f hf).2) hr with ⟨hdvd, hiff⟩
  exact ⟨fs, code, program, m, hp, hc, ha, hm, hrun, hdvd,
    hiff.1 fun k hk => hin k (List.mem_range.2 (Nat.lt_succ_of_le hk))⟩

/-- In 61 bytes of memory the frame does not fit. The stack pointer goes round to the upper end of the
words, and the program halts all the same. -/
theorem stack_pointer_leaves_stack : ∃ fs code program m,
    parse "DEF main() RETURN; a; END;" = .ok fs ∧ compile "DEF main() RETURN; a; END;" = .ok code ∧
    assemble (render code) = .ok program ∧ (Machine.empty 61).install program = .ok m ∧
    (∀ f ∈ fs, Direct (Stmt.allTargets f.body)) ∧
    (run 3 m (WordQueue.ofWords [])).2.2 = .running ∧
    m.programOffset < (run 3 m (WordQueue.ofWords [])).1.get .stack ∧
    (run 8 m (WordQueue.ofWords [])).2.2 = .halted := by
  have hruns : installs 61 "DEF main() RETURN; a; END;" (fun fs m => decide (
      (∀ f ∈ fs, Direct (Stmt.allTargets f.body)) ∧
      (run 3 m (WordQueue.ofWords [])).2.2 = .running ∧
      m.programOffset < (run 3 m (WordQueue.ofWords [])).1.get .stack ∧
      (run 8 m (WordQueue.ofWords [])).2.2 = .halted)) = true := by decide +kernel
  rcases installed_of_installs hruns with ⟨fs, code, program, m, hp, hc, ha, hm, htest⟩
  exact ⟨fs, code, program, m, hp, hc, ha, hm, of_decide_eq_true htest⟩

end Compiler

end WordMachine
