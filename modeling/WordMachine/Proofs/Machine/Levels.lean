import WordMachine.Proofs.Machine.Following
import WordMachine.Proofs.Machine.Transfer

/-!
# Levels of a run

A call takes a machine down a level, and the return that ends the call takes it up again. A part of a
run keeps its level if every call in it has returned. Every machine that a run comes to has kept the
level since a call that has not returned yet, or since the start.
-/

namespace WordMachine.Machine

variable {σ : Type} [Host σ]

/-- So many steps of a running machine that keep the level: a call goes together with what follows up to
its return. The steps at the level itself are taken with the instruction pointer in the region, and what
a call leads to satisfies a condition. -/
inductive Level (E : Machine → Prop) : (Nat → Prop) → Nat → Machine → σ → Machine → σ → Prop
  | done {region} (m : Machine) (h : σ) : Level E region 0 m h m h
  | step {region n m m₁ m₂ h h₁ h₂ i} : Level E region n m h m₁ h₁ →
      region (m₁.get .instruction).toNat → m₁.Fetches i → i.opcode ≠ .call → i.opcode ≠ .ret →
      m₁.step h₁ = (m₂, h₂, .running) → Level E region (n + 1) m h m₂ h₂
  | call {region n k m m₁ m₂ m₃ m₄ h h₁ h₂ h₃ h₄ i j} : Level E region n m h m₁ h₁ →
      region (m₁.get .instruction).toNat → m₁.Fetches i → i.opcode = .call →
      m₁.step h₁ = (m₂, h₂, .running) → E m₂ → Level E Anywhere k m₂ h₂ m₃ h₃ → m₃.Fetches j →
      j.opcode = .ret → m₃.step h₃ = (m₄, h₄, .running) → Level E region (n + (k + 2)) m h m₄ h₄

/-- After so many steps of a run a call has been made, or none yet. -/
inductive Begun (E : Machine → Prop) (m : Machine) (h : σ) : Nat → Machine → σ → Prop
  | start : Begun E m h 0 m h
  | call {n k e m₁ m₂ g h₁ h₂ i} : Begun E m h n e g → Level E Anywhere k e g m₁ h₁ →
      m₁.Fetches i → i.opcode = .call → m₁.step h₁ = (m₂, h₂, .running) → E m₂ →
      Begun E m h (n + k + 1) m₂ h₂

variable {E E' : Machine → Prop} {region : Nat → Prop} {n k : Nat} {m m₁ m₂ m' : Machine}
  {h h₁ h₂ h' : σ} {out : Outcome}

/-! ### Runs in parts -/

theorem run_add (hr : run n m h = (m₁, h₁, .running)) (k : Nat) : run (n + k) m h = run k m₁ h₁ := by
  induction n generalizing m h with
  | zero =>
    cases hr
    rw [Nat.zero_add]
  | succ n ih =>
    rcases exists_step_of_run hr with ⟨m₂, h₂, hs⟩
    rw [run_succ_of_running n hs] at hr
    rw [Nat.add_right_comm, run_succ_of_running _ hs, ih hr]

theorem run_one (hs : m.step h = (m₁, h₁, .running)) : run 1 m h = (m₁, h₁, .running) :=
  run_succ_of_running 0 hs

theorem step_of_run_one (hr : run 1 m h = (m₁, h₁, .running)) : m.step h = (m₁, h₁, .running) := by
  rcases exists_step_of_run hr with ⟨m₂, h₂, hs⟩
  rw [run_one hs] at hr
  cases hr
  exact hs

theorem programOffset_of_run (hr : run n m h = (m₁, h₁, .running)) :
    m₁.programOffset = m.programOffset := by
  induction n generalizing m h with
  | zero =>
    cases hr
    rfl
  | succ n ih =>
    rcases exists_step_of_run hr with ⟨m₂, h₂, hs⟩
    rw [run_succ_of_running n hs] at hr
    rw [ih hr, programOffset_of_running hs]

theorem size_of_run (hr : run n m h = (m₁, h₁, .running)) : m₁.memory.size = m.memory.size := by
  induction n generalizing m h with
  | zero =>
    cases hr
    rfl
  | succ n ih =>
    rcases exists_step_of_run hr with ⟨m₂, h₂, hs⟩
    rw [run_succ_of_running n hs] at hr
    rcases exists_fetches_of_running hs with ⟨i, hf⟩
    rw [ih hr, (hf.effect hs).size]

theorem exists_run_of_add (hr : run (n + k) m h = (m₂, h₂, .running)) :
    ∃ m₁ h₁, run n m h = (m₁, h₁, .running) ∧ run k m₁ h₁ = (m₂, h₂, .running) := by
  induction n generalizing m h with
  | zero => exact ⟨m, h, rfl, by rwa [Nat.zero_add] at hr⟩
  | succ n ih =>
    rw [Nat.add_right_comm] at hr
    rcases exists_step_of_run hr with ⟨m₁, h₁, hs⟩
    rw [run_succ_of_running _ hs] at hr
    rw [run_succ_of_running _ hs]
    exact ih hr

/-! ### Levels -/

theorem Level.mono (l : Level E region n m h m' h') (hE : ∀ e, E e → E' e) :
    Level E' region n m h m' h' := by
  induction l with
  | done m h => exact .done m h
  | step _ hr hf hc ht hs ih => exact .step ih hr hf hc ht hs
  | call _ hr hf hc hs he _ hf' ht hs' ih ih' => exact .call ih hr hf hc hs (hE _ he) ih' hf' ht hs'

theorem Level.run (l : Level E region n m h m' h') : Machine.run n m h = (m', h', .running) := by
  induction l with
  | done => rfl
  | step _ _ _ _ _ hs ih => rw [run_add ih, run_one hs]
  | call _ _ _ _ hs _ _ _ _ hs' ih ih' =>
    rw [run_add ih, run_succ_of_running _ hs, run_add ih', run_one hs']

theorem Begun.run (b : Begun E m h n m' h') : Machine.run n m h = (m', h', .running) := by
  induction b with
  | start => rfl
  | call _ l _ _ hs _ ih => rw [Nat.add_assoc, run_add ih, run_add l.run, run_one hs]

/-- If nothing returns at the first level, what a run comes to has kept the level since a call, or since
the start. -/
theorem exists_begun_of_run
    (hret : ∀ k m₁ h₁ i, Level E Anywhere k m h m₁ h₁ → m₁.Fetches i → i.opcode ≠ .ret)
    (hE : ∀ s ≤ n, E (run s m h).1) (hr : run n m h = (m', h', .running)) :
    ∃ a k e g, a + k = n ∧ Begun E m h a e g ∧ Level E Anywhere k e g m' h' := by
  induction n generalizing m' h' with
  | zero =>
    cases hr
    exact ⟨0, 0, m, h, rfl, .start, .done m h⟩
  | succ n ih =>
    have he := hE (n + 1) (Nat.le_refl _)
    rw [hr] at he
    rcases exists_run_of_add hr with ⟨m₁, h₁, hr₁, hlast⟩
    have hs := step_of_run_one hlast
    rcases ih (fun s hle => hE s (Nat.le_succ_of_le hle)) hr₁ with ⟨a, k, e, g, hn, hb, hl⟩
    rcases exists_fetches_of_running hs with ⟨i, hf⟩
    by_cases hc : i.opcode = .call
    · exact ⟨a + k + 1, 0, m', h', by rw [hn], .call hb hl hf hc hs he, .done m' h'⟩
    · by_cases ht : i.opcode = .ret
      · cases hb with
        | start => exact absurd ht (hret k m₁ h₁ i hl hf)
        | @call a' k' e' _ _ g' _ _ _ hb' hl' hf' hc' hs' he' =>
          exact ⟨a', k' + (k + 2), e', g', by omega, hb',
            .call hl' trivial hf' hc' hs' he' hl hf ht hs⟩
      · exact ⟨a, k + 1, e, g, by omega, hb, .step hl trivial hf hc ht hs⟩

end WordMachine.Machine
