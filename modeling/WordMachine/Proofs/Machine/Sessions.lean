import WordMachine.Machine.Processor
import WordMachine.Proofs.Machine.Atomicity
import WordMachine.Proofs.Machine.Hosts
import WordMachine.Proofs.Machine.Installation
import WordMachine.Proofs.Machine.Levels

/-!
# What is left of earlier programs

A processor lives through programs that are installed on it, through runs that may fail, and through
words that are put into its registers from outside. Nothing but the size of its memory outlasts the
installation of a program: every byte, every register, the flags and the cursor are overwritten, so that
whatever a processor has been through, it is afterwards the one that installing the program on a new one
gives, and cannot be told from it.
-/

namespace WordMachine

namespace Machine

variable {σ : Type} [Host σ] {m m' : Machine} {h : σ}

/-! ### The size of memory -/

theorem unchanged_of_halted {h' : σ} (hs : m.step h = (m', h', .halted)) : m' = m ∧ h' = h := by
  have hle := ends_halted_iff.1 (step_outcome_iff.1 (congrArg (·.2.2) hs))
  rw [step_eq_halted_iff.2 hle] at hs
  cases hs
  exact ⟨rfl, rfl⟩

theorem unchanged_of_fault {h' : σ} {f : Fault} (hs : m.step h = (m', h', .fault f)) :
    m'.memory = m.memory ∧ m'.programOffset = m.programOffset := by
  rcases machine_of_fault hs with ⟨_, rfl⟩ | ⟨_, rfl⟩
  · exact ⟨rfl, rfl⟩
  · exact ⟨rfl, rfl⟩

theorem size_step (m : Machine) (h : σ) : (m.step h).1.memory.size = m.memory.size := by
  rcases hs : m.step h with ⟨m', h', _ | _ | f⟩
  · exact size_of_run (run_one hs)
  · rw [(unchanged_of_halted hs).1]
  · rw [(unchanged_of_fault hs).1]

theorem size_run (steps : Nat) (m : Machine) (h : σ) :
    (m.run steps h).1.memory.size = m.memory.size := by
  induction steps generalizing m h with
  | zero => rfl
  | succ steps ih =>
    have hs := size_step m h
    rw [run]
    generalize m.step h = p at hs ⊢
    rcases p with ⟨m', h', _ | _ | f⟩
    · exact (ih m' h').trans hs
    · exact hs
    · exact hs

theorem boot_congr {m n : Machine} {program : List UInt8} (hs : m.memory.size = n.memory.size)
    (hp : program.length ≤ m.memory.size) : m.boot program = n.boot program := by
  have hoffset : (m.boot program).programOffset = (n.boot program).programOffset :=
    congrArg (fun size => UInt32.ofNat (size - program.length)) hs
  apply Machine.ext
  · apply Memory.ext_bytes
    intro i
    rw [getElem?_boot hp, getElem?_boot (hs ▸ hp), hs]
  · apply RegisterFile.ext_get
    intro r
    show (m.boot program).get r = (n.boot program).get r
    rw [get_boot, get_boot, hoffset]
  · rfl
  · exact hoffset

end Machine

namespace Processor

open Machine (Matches)

/-! ### Sessions -/

inductive Act
  | install (program : List UInt8)
  /-- at most so many steps -/
  | run (steps : Nat)
  | set (r : Register) (w : Word)

def installed : Except Fault Unit → Outcome
  | .ok _ => .running
  | .error f => .fault f

section

variable {σ : Type} [Host σ]

/-- Does it, and tells how it ends. -/
def perform (p : Processor) (h : σ) : Act → Processor × σ × Outcome
  | .install program => ((p.install program).1, h, installed (p.install program).2)
  | .run steps => p.run steps h
  | .set r w => (p.set r w, h, .running)

/-- Does one thing after another, whatever they end with. -/
def session (p : Processor) (h : σ) : List Act → Processor × σ × List Outcome
  | [] => (p, h, [])
  | a :: as =>
    let (p₁, h₁, out) := p.perform h a
    let (p₂, h₂, outs) := p₁.session h₁ as
    (p₂, h₂, out :: outs)

end

/-- Processors that a new one with memory of a size can become, with any hosts. -/
inductive Reached (size : Word) : Processor → Prop
  | empty : Reached size (.empty size)
  | perform {σ : Type} [Host σ] {p : Processor} (h : σ) (a : Act) : Reached size p →
      Reached size (p.perform h a).1

/-- A processor on which nothing but a program is left. -/
structure Pristine (size : Nat) (program : List UInt8) (p : Processor) : Prop where
  bytes : p.memory.bytes.toList = List.replicate (size - program.length) 0 ++ program
  registers : ∀ r, p.get r = if r = .stack ∨ r = .instruction then p.programOffset else 0
  flags : p.flags = .clear
  programOffset : p.programOffset.toNat + program.length = size
  cursor : p.cursor = p.programOffset

variable {p p' q : Processor} {program : List UInt8} {size : Word}

theorem size_perform {σ : Type} [Host σ] (p : Processor) (h : σ) (a : Act) :
    (p.perform h a).1.memory.size = p.memory.size := by
  cases a with
  | install program =>
    rw [perform, install]
    by_cases hlt : p.memory.size < program.length
    · rw [if_pos hlt]
    · rw [if_neg hlt]
      exact Machine.size_boot p.toMachine program
  | run steps =>
    have hr := Machine.size_run steps p.toMachine h
    rw [← toMachine_run] at hr
    exact hr
  | set r w => rfl

theorem Reached.size_eq (hp : Reached size p) : p.memory.size = size.toNat := by
  induction hp with
  | empty => exact Memory.size_zeros size
  | perform h a _ ih => rw [size_perform, ih]

/-! ### Installing -/

theorem install_of_lt (hlt : p.memory.size < program.length) :
    p.install program = (p, .error (.programTooLarge program.length p.memory.size)) := by
  rw [install, if_pos hlt]

theorem install_of_le (hle : program.length ≤ p.memory.size) : p.install program =
    (⟨p.toMachine.boot program, (p.toMachine.boot program).programOffset⟩, .ok ()) := by
  rw [install, if_neg (Nat.not_lt.2 hle)]

/-- Of a processor on which a program is installed only the size of memory matters. -/
theorem install_congr (hs : p.memory.size = q.memory.size) (hle : program.length ≤ p.memory.size) :
    p.install program = q.install program := by
  rw [install_of_le hle, install_of_le (hs ▸ hle), Machine.boot_congr hs hle]

theorem pristine_boot {m : Machine} (hle : program.length ≤ m.memory.size) :
    Pristine m.memory.size program ⟨m.boot program, (m.boot program).programOffset⟩ where
  bytes := Machine.bytes_boot hle
  registers := Machine.get_boot m program
  flags := rfl
  programOffset := Machine.programOffset_boot hle
  cursor := by dsimp only

/-! ### Sessions with hosts that are alike -/

section

variable {σ τ : Type} [Host σ] [Host τ] {R : σ → τ → Prop} {h : σ} {k : τ}

theorem step_matches (hR : Host.Alike R) (hk : R h k) (p : Processor) :
    Matches R (p.step h) (p.step k) := by
  rw [step, step]
  by_cases hle : p.memory.size ≤ (p.get .instruction).toNat
  · simp only [if_pos hle]
    exact ⟨rfl, rfl, hk⟩
  · simp only [if_neg hle]
    cases p.fetch (p.get .instruction) with
    | error f => exact ⟨rfl, rfl, hk⟩
    | ok read =>
      rcases read with ⟨i, cursor⟩
      have he := Machine.execute_matches hR hk p.toMachine (p.get .instruction) cursor i
      dsimp only
      generalize p.execute h (p.get .instruction) cursor i = x at he ⊢
      generalize p.execute k (p.get .instruction) cursor i = y at he ⊢
      rcases x with ⟨m, h', result⟩
      rcases y with ⟨n, k', result'⟩
      rcases he with ⟨rfl, rfl, hk'⟩
      cases result with
      | error f => exact ⟨rfl, rfl, hk'⟩
      | ok next => exact ⟨rfl, rfl, hk'⟩

theorem run_matches (hR : Host.Alike R) (hk : R h k) (n : Nat) (p : Processor) :
    Matches R (p.run n h) (p.run n k) := by
  induction n generalizing p h k with
  | zero => exact ⟨rfl, rfl, hk⟩
  | succ n ih =>
    have hs := step_matches hR hk p
    rw [run, run]
    generalize p.step h = x at hs ⊢
    generalize p.step k = y at hs ⊢
    rcases x with ⟨p₁, h₁, outcome⟩
    rcases y with ⟨p₂, k₁, outcome'⟩
    rcases hs with ⟨rfl, rfl, hk₁⟩
    cases outcome with
    | running => exact ih hk₁ p₁
    | halted => exact ⟨rfl, rfl, hk₁⟩
    | fault f => exact ⟨rfl, rfl, hk₁⟩

theorem perform_matches (hR : Host.Alike R) (hk : R h k) (p : Processor) (a : Act) :
    Matches R (p.perform h a) (p.perform k a) := by
  cases a with
  | install program => exact ⟨rfl, rfl, hk⟩
  | run steps => exact run_matches hR hk steps p
  | set r w => exact ⟨rfl, rfl, hk⟩

theorem session_matches (hR : Host.Alike R) (hk : R h k) (as : List Act) (p : Processor) :
    Matches R (p.session h as) (p.session k as) := by
  induction as generalizing p h k with
  | nil => exact ⟨rfl, rfl, hk⟩
  | cons a as ih =>
    have ha := perform_matches hR hk p a
    rw [session, session]
    generalize p.perform h a = x at ha ⊢
    generalize p.perform k a = y at ha ⊢
    rcases x with ⟨p₁, h₁, out⟩
    rcases y with ⟨p₂, k₁, out'⟩
    rcases ha with ⟨rfl, rfl, hk₁⟩
    have hs := ih hk₁ p₁
    exact ⟨hs.machine, congrArg (out :: ·) hs.result, hs.hosts⟩

/-- What two processors with memory of one size have been through does not matter once a program is
installed on them. One that does not fit leaves each of them as it was. One that fits makes both into
the processor that a new one becomes, on which there is nothing but the program, and whatever is done
then, with hosts that cannot be told apart, ends the same way on both. -/
theorem installation_erases_history {p q : Processor} (hp : Reached size p) (hq : Reached size q)
    (program : List UInt8) :
    (size.toNat < program.length →
      p.install program = (p, .error (.programTooLarge program.length size.toNat)) ∧
      q.install program = (q, .error (.programTooLarge program.length size.toNat))) ∧
    (program.length ≤ size.toNat → ∃ fresh, (empty size).install program = (fresh, .ok ()) ∧
      fresh.Pristine size.toNat program ∧
      p.install program = (fresh, .ok ()) ∧ q.install program = (fresh, .ok ()) ∧
      ∀ (R : σ → τ → Prop) h k, Host.Alike R → R h k → ∀ later,
        Matches R (p.session h (.install program :: later))
          (q.session k (.install program :: later))) := by
  have hps := hp.size_eq
  have hqs := hq.size_eq
  have hes : (empty size).memory.size = size.toNat := Memory.size_zeros size
  refine ⟨fun hlt => ⟨?_, ?_⟩, fun hle => ?_⟩
  · rw [install_of_lt (by rwa [hps]), hps]
  · rw [install_of_lt (by rwa [hqs]), hqs]
  · have hnew : (empty size).install program = _ := install_of_le (by rwa [hes])
    have hpristine : Pristine _ program _ := pristine_boot (by rwa [hes])
    rw [hes] at hpristine
    have hpi := (install_congr (hps.trans hes.symm) (by rwa [hps])).trans hnew
    have hqi := (install_congr (hqs.trans hes.symm) (by rwa [hqs])).trans hnew
    refine ⟨_, hnew, hpristine, hpi, hqi, fun R h k hR hk later => ?_⟩
    have hs := session_matches hR hk later
      ⟨(empty size).toMachine.boot program, ((empty size).toMachine.boot program).programOffset⟩
    rw [session, session, perform, perform, hpi, hqi]
    exact ⟨hs.machine, congrArg (Outcome.running :: ·) hs.result, hs.hosts⟩

end

/-- A processor whose stack pointer has left memory, with a word in a register and the cursor behind the
instruction that failed. -/
theorem installation_erases_history_after_fault : ∃ p fresh, Reached 8 p ∧
    p.get ⟨3⟩ = 5 ∧ p.get .stack = 4294967292 ∧ p.get .instruction = 6 ∧ p.cursor = 8 ∧
    p.memory.bytes.toList = [2, 3, 5, 0, 0, 0, 11, 3] ∧
    fresh.memory.bytes.toList = [0, 0, 0, 0, 0, 0, 4, 3] ∧
    fresh.get ⟨3⟩ = 0 ∧ fresh.get .stack = 6 ∧ fresh.cursor = 6 ∧
    (empty 8).install [4, 3] = (fresh, .ok ()) ∧ p.install [4, 3] = (fresh, .ok ()) := by
  let q := WordQueue.ofWords []
  let p := (((empty 8).perform q (.install [2, 3, 5, 0, 0, 0, 11, 3])).1.perform q (.run 2)).1
  have hruns : p.get ⟨3⟩ = 5 ∧ p.get .stack = 4294967292 ∧ p.get .instruction = 6 ∧ p.cursor = 8 ∧
      p.memory.bytes.toList = [2, 3, 5, 0, 0, 0, 11, 3] := by decide +kernel
  obtain ⟨hword, hstack, hposition, hcursor, hbytes⟩ := hruns
  have hp : Reached 8 p := .perform q _ (.perform q _ .empty)
  obtain ⟨fresh, hnew, hpristine, hsame, _⟩ :=
    (@installation_erases_history _ WordQueue WordQueue _ _ p p hp hp [4, 3]).2 (by decide)
  have hstart : fresh.programOffset = 6 :=
    UInt32.toNat_inj.1 (Nat.add_right_cancel hpristine.programOffset)
  refine ⟨p, fresh, hp, hword, hstack, hposition, hcursor, hbytes, hpristine.bytes, ?_, ?_, ?_, hnew,
    hsame⟩
  · rw [hpristine.registers]
    rfl
  · rw [hpristine.registers, hstart]
    rfl
  · rw [hpristine.cursor, hstart]

end Processor

end WordMachine
