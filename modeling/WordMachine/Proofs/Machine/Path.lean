import WordMachine.Machine.Step

/-!
# Paths of a machine

A path is a sequence of steps of a running machine, each from an instruction pointer in a given
region. A path and the step after it determine what a run of that many steps gives, and the region
says where the pointer can have been meanwhile.
-/

namespace WordMachine.Machine

variable {σ : Type} [Host σ]

/-- Steps of a running machine, each taken with the instruction pointer in the region. -/
inductive Path (region : Nat → Prop) : Machine → σ → Machine → σ → Prop
  | done (m : Machine) (h : σ) : Path region m h m h
  | step {m m₁ m₂ : Machine} {h h₁ h₂ : σ} : region (m.get .instruction).toNat →
      m.step h = (m₁, h₁, .running) → Path region m₁ h₁ m₂ h₂ → Path region m h m₂ h₂

def Faults (region : Nat → Prop) (m : Machine) (h : σ) (f : Fault) (h' : σ) : Prop :=
  ∃ m₁ h₁ m₂, Path region m h m₁ h₁ ∧ region (m₁.get .instruction).toNat ∧
    m₁.step h₁ = (m₂, h', .fault f)

variable {region wider : Nat → Prop} {m m₁ m₂ : Machine} {h h₁ h₂ : σ} {f : Fault}

/-! ### Composition -/

theorem Path.trans (p : Path region m h m₁ h₁) (q : Path region m₁ h₁ m₂ h₂) :
    Path region m h m₂ h₂ := by
  induction p with
  | done => exact q
  | step hr hs _ ih => exact .step hr hs (ih q)

theorem Path.single (hr : region (m.get .instruction).toNat)
    (hs : m.step h = (m₁, h₁, .running)) : Path region m h m₁ h₁ :=
  .step hr hs (.done m₁ h₁)

theorem Path.mono (p : Path region m h m₁ h₁) (hw : ∀ a, region a → wider a) :
    Path wider m h m₁ h₁ := by
  induction p with
  | done => exact .done ..
  | step hr hs _ ih => exact .step (hw _ hr) hs ih

theorem Faults.mono (p : Faults region m h f h₁) (hw : ∀ a, region a → wider a) :
    Faults wider m h f h₁ := by
  obtain ⟨m₁, h₁, m₂, hp, hr, hs⟩ := p
  exact ⟨m₁, h₁, m₂, hp.mono hw, hw _ hr, hs⟩

theorem Faults.single (hr : region (m.get .instruction).toNat)
    (hs : m.step h = (m₁, h₁, .fault f)) : Faults region m h f h₁ :=
  ⟨m, h, m₁, .done m h, hr, hs⟩

theorem Path.faults (p : Path region m h m₁ h₁) (q : Faults region m₁ h₁ f h₂) :
    Faults region m h f h₂ := by
  obtain ⟨m₂, h₂, m₃, hp, hr, hs⟩ := q
  exact ⟨m₂, h₂, m₃, p.trans hp, hr, hs⟩

/-! ### Runs -/

theorem run_succ_of_running (n : Nat) (hs : m.step h = (m₁, h₁, .running)) :
    run (n + 1) m h = run n m₁ h₁ := by
  rw [run, hs]

theorem exists_step_of_run {n : Nat} (hr : run (n + 1) m h = (m₂, h₂, .running)) :
    ∃ m₁ h₁, m.step h = (m₁, h₁, .running) := by
  rw [run] at hr
  cases hs : m.step h with
  | mk m₁ q =>
    rcases q with ⟨h₁, out⟩
    rw [hs] at hr
    cases out with
    | running => exact ⟨m₁, h₁, rfl⟩
    | halted => cases hr
    | fault f => cases hr

theorem Path.run (p : Path region m h m₁ h₁) : ∃ n, ∀ k, run (n + k) m h = run k m₁ h₁ := by
  induction p with
  | done => exact ⟨0, fun k => by rw [Nat.zero_add]⟩
  | step _ hs _ ih =>
    obtain ⟨n, hn⟩ := ih
    refine ⟨n + 1, fun k => ?_⟩
    rw [Nat.add_right_comm, run_succ_of_running _ hs, hn]

theorem Path.run_running (p : Path region m h m₁ h₁) : ∃ n, Machine.run n m h = (m₁, h₁, .running) := by
  obtain ⟨n, hn⟩ := p.run
  exact ⟨n, hn 0⟩

theorem Path.run_of_step {o : Outcome} (p : Path region m h m₁ h₁)
    (hs : m₁.step h₁ = (m₂, h₂, o)) (ho : o ≠ .running) :
    ∃ n, Machine.run n m h = (m₂, h₂, o) := by
  obtain ⟨n, hn⟩ := p.run
  refine ⟨n + 1, ?_⟩
  rw [hn 1, Machine.run, hs]
  cases o with
  | running => exact absurd rfl ho
  | halted => rfl
  | fault f => rfl

theorem Faults.run (p : Faults region m h f h₁) : ∃ n m₁, Machine.run n m h = (m₁, h₁, .fault f) := by
  obtain ⟨m₁, h₁, m₂, hp, _, hs⟩ := p
  obtain ⟨n, hn⟩ := hp.run_of_step hs (by simp)
  exact ⟨n, m₂, hn⟩

/-- While a run that will fault is still going on, its instruction pointer is in the region. -/
theorem Faults.region_of_run (p : Faults region m h f h₁) {n : Nat}
    (hn : Machine.run n m h = (m₂, h₂, .running)) : region (m₂.get .instruction).toNat := by
  obtain ⟨k, hk, e, hp, hr, hs⟩ := p
  induction hp generalizing n with
  | done m h =>
    cases n with
    | zero =>
      cases hn
      exact hr
    | succ n =>
      rw [Machine.run, hs] at hn
      cases hn
  | step hr' hs' _ ih =>
    cases n with
    | zero =>
      cases hn
      exact hr'
    | succ n =>
      rw [run_succ_of_running n hs'] at hn
      exact ih hn hr hs

end WordMachine.Machine
