import WordMachine.Proofs.Machine.Path
import WordMachine.Proofs.Source.Interpreter

/-!
# Machines that follow runs

A machine follows a run if it comes to where the run does, with the same words read and written, as long
as the words that the run has on the stack find room in memory. If the run divides by zero, so does the
machine. If they find no room, the machine faults as its stack leaves memory.
-/

namespace WordMachine.Machine

open Source

/-- The instruction pointer may be wherever it is. -/
def Anywhere (_ : Nat) : Prop := True

/-- So many words find room below an address. -/
def Fits (words : Nat) (x : Int) : Prop := words ≠ 0 → 4 * (words : Int) ≤ x

/-- The machine faults as its stack leaves memory. What it has written until then is the beginning of
what is to be written in the end. -/
def Starves (m : Machine) (q last : WordQueue) : Prop :=
  ∃ m₁ q₁ m₂ q₂, Path Anywhere m q m₁ q₁ ∧
    m₁.step q₁ = (m₂, q₂, .fault (.outOfBounds (m₂.get .stack) 4)) ∧
    q₂.output.toList <+: last.output.toList

/-- The machine comes to where a run does. -/
def Realizes {α : Type} (m : Machine) (q : WordQueue) (goal : Machine → α → Prop) :
    Except Abort α × WordQueue → Prop
  | (.ok a, q') => ∃ m', Path Anywhere m q m' q' ∧ goal m' a
  | (.error e, q') => e = .divisionByZero → ∃ a, Faults Anywhere m q (.divisionByZero a) q'

/-- A run comes to a result or divides by zero. -/
def Settled {α : Type} : Except Abort α → Prop
  | .ok _ => True
  | .error e => e = .divisionByZero

/-- The machine, whose stack ends at an address, comes to where a run does if there is room for the words
of the run, and else starves. -/
structure Follows {α : Type} (x : Int) (m : Machine) (q : WordQueue) (goal : Machine → α → Prop)
    (r : Run α) : Prop where
  realizes : Fits (r.words q) x → Realizes m q goal (r q)
  starves : ¬Fits (r.words q) x → Settled (r q).1 → Starves m q (r q).2

variable {α β : Type} {n : Nat} {x y : Int} {m m₁ m₂ : Machine} {q q₁ last : WordQueue}
  {goal goal' : Machine → α → Prop} {outcome : Except Abort α × WordQueue} {a : α} {r : Run α}

theorem fits_zero (x : Int) : Fits 0 x := fun h => absurd rfl h

theorem fits_max {i j : Nat} : Fits (max i j) x ↔ Fits i x ∧ Fits j x := by
  simp only [Fits]
  omega

/-! ### What comes first and last -/

theorem Starves.after (h : Starves m₁ q₁ last) (p : Path Anywhere m q m₁ q₁) : Starves m q last := by
  obtain ⟨m₂, q₂, m₃, q₃, p₂, hs, hq⟩ := h
  exact ⟨m₂, q₂, m₃, q₃, p.trans p₂, hs, hq⟩

theorem Starves.longer {last' : WordQueue} (h : Starves m q last)
    (hq : last.output.toList <+: last'.output.toList) : Starves m q last' := by
  obtain ⟨m₂, q₂, m₃, q₃, p, hs, hq'⟩ := h
  exact ⟨m₂, q₂, m₃, q₃, p, hs, hq'.trans hq⟩

theorem starves_of_fault {a : Word} (hs : m.step q = (m.set .stack a, q, .fault (.outOfBounds a 4))) :
    Starves m q q := by
  have ha : (m.set .stack a).get .stack = a :=
    (RegisterFile.get_set m.registers .stack .stack a).trans (if_pos rfl)
  exact ⟨m, q, _, q, .done m q, by rw [hs, ha], List.prefix_rfl⟩

theorem Realizes.after (h : Realizes m₁ q₁ goal outcome) (p : Path Anywhere m q m₁ q₁) :
    Realizes m q goal outcome := by
  rcases outcome with ⟨e | a, q'⟩
  · intro he
    obtain ⟨a, hf⟩ := h he
    exact ⟨a, p.faults hf⟩
  · obtain ⟨m₂, p₂, hg⟩ := h
    exact ⟨m₂, p.trans p₂, hg⟩

theorem Realizes.goes (h : Realizes m q goal outcome)
    (hg : ∀ m₁ a (q₁ : WordQueue), goal m₁ a → ∃ m', Path Anywhere m₁ q₁ m' q₁ ∧ goal' m' a) :
    Realizes m q goal' outcome := by
  rcases outcome with ⟨e | a, q'⟩
  · exact h
  · obtain ⟨m₁, p, ha⟩ := h
    obtain ⟨m', p', ha'⟩ := hg m₁ a q' ha
    exact ⟨m', p.trans p', ha'⟩

theorem Follows.after (h : Follows x m₁ q goal r) (p : Path Anywhere m q m₁ q) :
    Follows x m q goal r where
  realizes hx := (h.realizes hx).after p
  starves hx hr := (h.starves hx hr).after p

theorem Follows.goes (h : Follows x m q goal r)
    (hg : ∀ m₁ a (q₁ : WordQueue), goal m₁ a → ∃ m', Path Anywhere m₁ q₁ m' q₁ ∧ goal' m' a) :
    Follows x m q goal' r where
  realizes hx := (h.realizes hx).goes hg
  starves := h.starves

theorem Follows.imp (h : Follows x m q goal r) (hg : ∀ m' a, goal m' a → goal' m' a) :
    Follows x m q goal' r :=
  h.goes fun m₁ a q₁ ha => ⟨m₁, .done m₁ q₁, hg m₁ a ha⟩

/-! ### Runs without a push -/

theorem follows_of_realizes (hw : r.words q = 0) (h : Realizes m q goal (r q)) : Follows x m q goal r where
  realizes _ := h
  starves hx := absurd (hw ▸ fits_zero x) hx

theorem follows_of_path (p : Path Anywhere m q m₁ q) (hg : goal m₁ a) :
    Follows x m q goal (Run.result a) :=
  follows_of_realizes rfl ⟨m₁, p, hg⟩

theorem follows_result (hg : goal m a) : Follows x m q goal (Run.result a) :=
  follows_of_path (.done m q) hg

theorem follows_abort {e : Abort} (he : e ≠ .divisionByZero) : Follows x m q goal (Run.abort e) :=
  follows_of_realizes rfl fun h => absurd h he

/-! ### Runs with a push -/

theorem Follows.pushed (hn : n ≠ 0) (h : 4 * (n : Int) ≤ x → Follows (x - 4 * n) m q goal r)
    (hs : x < 4 * (n : Int) → Starves m q q) : Follows x m q goal (.pushed n r) where
  realizes hx := by
    have hx : Fits (n + r.words q) x := hx
    have hroom := hx (by omega)
    exact (h (by omega)).realizes fun _ => by omega
  starves hx hr := by
    have hx : ¬Fits (n + r.words q) x := hx
    simp only [Fits] at hx
    by_cases hroom : 4 * (n : Int) ≤ x
    · refine (h hroom).starves (fun hfits => hx fun _ => ?_) hr
      simp only [Fits] at hfits
      omega
    · exact (hs (by omega)).longer (r.prefix_run q)

theorem Follows.reserved (h : Follows (x - 4 * n) m q goal r) : Follows x m q goal (.reserved n r) := by
  have hfits : Fits (if r.words q = 0 then 0 else n + r.words q) x ↔ Fits (r.words q) (x - 4 * n) := by
    simp only [Fits]
    split <;> omega
  exact ⟨fun hx => h.realizes (hfits.1 hx), fun hx hr => h.starves (fun hf => hx (hfits.2 hf)) hr⟩

/-! ### Sequences -/

theorem Follows.bind {k : α → Run β} {goal' : Machine → β → Prop} (h : Follows x m q goal r)
    (hk : ∀ a q₁ m₁, r q = (.ok a, q₁) → goal m₁ a → Follows x m₁ q₁ goal' (k a)) :
    Follows x m q goal' (r >>= k) := by
  show Follows x m q goal' (Run.andThen r k)
  rcases hr : r q with ⟨e | a, q₁⟩
  · have hwords : (Run.andThen r k).words q = r.words q := by simp only [Run.andThen, hr]
    have hrun : Run.andThen r k q = (.error e, q₁) := by simp only [Run.andThen, hr]
    refine ⟨fun hx => ?_, fun hx hs => ?_⟩
    · have hreal := h.realizes (hwords ▸ hx)
      rw [hr] at hreal
      rw [hrun]
      exact hreal
    · rw [hrun] at hs ⊢
      have hstarve := h.starves (hwords ▸ hx)
      rw [hr] at hstarve
      exact hstarve hs
  · have hwords : (Run.andThen r k).words q = max (r.words q) ((k a).words q₁) := by
      simp only [Run.andThen, hr]
    have hrun : Run.andThen r k q = k a q₁ := by simp only [Run.andThen, hr]
    have hreal := h.realizes
    have hstarve := h.starves
    rw [hr] at hreal hstarve
    refine ⟨fun hx => ?_, fun hx hs => ?_⟩
    · rw [hwords, fits_max] at hx
      obtain ⟨m₁, p, hg⟩ := hreal hx.1
      rw [hrun]
      exact ((hk a q₁ m₁ hr hg).realizes hx.2).after p
    · rw [hwords, fits_max] at hx
      rw [hrun] at hs ⊢
      by_cases hfirst : Fits (r.words q) x
      · obtain ⟨m₁, p, hg⟩ := hreal hfirst
        exact ((hk a q₁ m₁ hr hg).starves (fun hf => hx ⟨hfirst, hf⟩) hs).after p
      · exact (hstarve hfirst trivial).longer ((k a).prefix_run q₁)

end WordMachine.Machine
