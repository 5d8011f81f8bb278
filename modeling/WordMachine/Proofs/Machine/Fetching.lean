import WordMachine.Proofs.Assembly.Listing
import WordMachine.Proofs.Machine.Sessions

/-!
# Fetching what is listed

The machine reads instructions in its memory, the disassembler in the bytes of a program. Installing
puts the program at the very end of memory, so that an instruction that the program cuts short is cut
short in memory too. While the program is not written to, the two read the same at the same offset.
-/

namespace WordMachine.Machine

open Assembly Instruction

/-! ### Steps one after another -/

section

variable {σ : Type} [Host σ]

/-- The machine and the host after so many steps, each taken whatever came of the one before. -/
def steps : Nat → Machine → σ → Machine × σ
  | 0, m, h => (m, h)
  | n + 1, m, h => steps n (m.step h).1 (m.step h).2.1

/-- A step once an instruction, with the address past it, or none has been read where the instruction
pointer stands. -/
def stepWith (m : Machine) (h : σ) :
    Except DecodeError (Instruction Word × Nat) → Machine × σ × Outcome
  | .ok (i, next) => conclude i (m.execute h (m.get .instruction) (UInt32.ofNat next) i)
  | .error (.invalidOpcode b) => (m, h, .fault (.invalidOpcode b (m.get .instruction)))
  | .error .truncated => (m, h, .fault (.truncatedInstruction (m.get .instruction)))

end

/-- The address and the number of the bytes that a step writes. -/
def written? (m : Machine) : Option (Word × Nat) :=
  match m.fetch (m.get .instruction) with
  | .ok i => if i.stores then (m.access? i).filter fun a => m.memory.Holds a.1 a.2 else none
  | .error _ => none

def WritesBelow (m : Machine) : Prop :=
  ∀ a ∈ m.written?, a.1.toNat + a.2 ≤ m.programOffset.toNat

instance (m : Machine) : Decidable m.WritesBelow :=
  inferInstanceAs (Decidable (∀ a ∈ m.written?, a.1.toNat + a.2 ≤ m.programOffset.toNat))

/-- What is read at an offset of a part of some bytes, with offsets counted from the first of them. -/
def shifted (start : Nat) (r : Except DecodeError (Instruction Word × Nat)) :
    Except DecodeError (Instruction Word × Nat) :=
  r.map fun p => (p.1, start + p.2)

variable {program : List UInt8} {m m₀ m₁ : Machine} {o n : Nat} {i : Instruction Word}

/-! ### Reading -/

theorem Loaded.at_iff (hl : m.Loaded program) (ho : o ≤ program.length) :
    m.At o ↔ (m.get .instruction).toNat = m.programOffset.toNat + o := by
  rw [← hl.toNat_absolute ho, UInt32.toNat_inj, At]

/-- The end of the program is the end of memory, so nothing can be read in memory that the program cuts
short. -/
theorem Loaded.decodeAt_memory (hl : m.Loaded program) (o : Nat) :
    decodeAt m.memory.bytes.toList (m.programOffset.toNat + o) =
      shifted m.programOffset.toNat (decodeAt program o) := by
  rw [decodeAt_eq, decodeAt_eq, ← List.drop_drop, hl.drop_eq]
  cases decode (program.drop o) with
  | ok i => exact congrArg (fun next => Except.ok (i, next)) (Nat.add_assoc _ _ _)
  | error e => rfl

section

variable {σ : Type} [Host σ] {h h' : σ}

theorem step_eq_stepWith (hlt : (m.get .instruction).toNat < m.memory.size) (h : σ) :
    m.step h = m.stepWith h (decodeAt m.memory.bytes.toList (m.get .instruction).toNat) := by
  rw [step_of_lt hlt, fetch_eq, decodeAt_eq]
  cases hd : decode (m.memory.bytes.toList.drop (m.get .instruction).toNat) with
  | ok i =>
    have hnext : m.get .instruction + UInt32.ofNat i.size =
        UInt32.ofNat ((m.get .instruction).toNat + i.size) := by
      rw [UInt32.ofNat_add, UInt32.ofNat_toNat]
    dsimp only
    rw [hnext]
    rfl
  | error e => cases e <;> rfl

theorem Loaded.step_eq (hl : m.Loaded program) (ho : o < program.length) (ha : m.At o) (h : σ) :
    m.step h = m.stepWith h (shifted m.programOffset.toNat (decodeAt program o)) := by
  have hsize := hl.size_eq
  have hpos := (hl.at_iff (Nat.le_of_lt ho)).1 ha
  rw [step_eq_stepWith (by omega), hpos, hl.decodeAt_memory]

/-! ### Writing -/

theorem Fetches.written?_eq (hf : m.Fetches i) (hs : i.stores = true) :
    m.written? = (m.access? i).filter fun a => m.memory.Holds a.1 a.2 := by
  rw [written?, hf.fetch_eq]
  exact if_pos hs

/-- Of memory a step changes only what it writes. -/
theorem written?_of_ne {p : Nat}
    (hp : (m.step h).1.memory.bytes[p]? ≠ m.memory.bytes[p]?) :
    ∃ a ∈ m.written?, a.1.toNat ≤ p ∧ p < a.1.toNat + a.2 := by
  rcases hs : m.step h with ⟨m', h', _ | _ | f⟩ <;> rw [hs] at hp
  case running =>
    rcases exists_fetches_of_running hs with ⟨i, hf⟩
    rcases (hf.effect hs).memory p hp with ⟨hi, a, width, ha, hle, hlt⟩
    have hin : m.memory.Holds a width := hf.access_le hs ha
    refine ⟨(a, width), ?_, hle, hlt⟩
    rw [hf.written?_eq hi, ha]
    exact Option.mem_filter_iff.2 ⟨rfl, decide_eq_true hin⟩
  case halted => exact absurd (congrArg (·.memory.bytes[p]?) (unchanged_of_halted hs).1) hp
  case fault => exact absurd (congrArg (·.bytes[p]?) (unchanged_of_fault hs).1) hp

theorem programOffset_step (m : Machine) (h : σ) : (m.step h).1.programOffset = m.programOffset := by
  rcases hs : m.step h with ⟨m', h', _ | _ | f⟩
  · exact programOffset_of_running hs
  · exact congrArg programOffset (unchanged_of_halted hs).1
  · exact (unchanged_of_fault hs).2

theorem Loaded.after_step (hl : m.Loaded program) (hw : m.WritesBelow) (h : σ) :
    (m.step h).1.Loaded program := by
  have hm : m.memory.AgreeFrom (m.step h).1.memory m.programOffset.toNat := by
    refine ⟨size_step m h, fun p hp => Classical.byContradiction fun hne => ?_⟩
    rcases written?_of_ne hne with ⟨a, ha, -, hlt⟩
    have hle := hw a ha
    omega
  exact hl.of_agree hm (Int.le_refl _) (programOffset_step m h)

/-- The program is still there after steps that do not write to it. -/
theorem Loaded.after_steps (hl : m.Loaded program) (hw : ∀ k < n, (steps k m h).1.WritesBelow) :
    (steps n m h).1.Loaded program := by
  induction n generalizing m h with
  | zero => exact hl
  | succ n ih =>
    exact ih (hl.after_step (hw 0 (Nat.succ_pos n)) h) fun k hk => hw (k + 1) (Nat.succ_lt_succ hk)

theorem programOffset_steps (n : Nat) (m : Machine) (h : σ) :
    (steps n m h).1.programOffset = m.programOffset := by
  induction n generalizing m h with
  | zero => rfl
  | succ n ih => rw [steps, ih, programOffset_step]

end

/-! ### Listed instructions -/

variable {σ : Type} [Host σ] {h h' : σ}

/-- After installing a program the machine fetches what the disassembler lists, as long as no step has
written to the program, whatever the steps have come to and wherever jumps have led. At an offset of
the program the machine reads in its memory what is read in the program, and goes on or fails
accordingly. If the program can be listed, then at the offset of a listed instruction this instruction
is executed; unless it jumps, the next one that is executed is the next one listed, and after the last
one the machine halts. -/
theorem steps_follow_listing (hm : m₀.install program = .ok m₁)
    (hw : ∀ k < n, (steps k m₁ h).1.WritesBelow) (hs : steps n m₁ h = (m, h')) :
    m.programOffset = m₁.programOffset ∧
    (∀ o < program.length, m.At o →
      decodeAt m.memory.bytes.toList (m.get .instruction).toNat =
        shifted m.programOffset.toNat (decodeAt program o) ∧
      m.step h' = m.stepWith h' (shifted m.programOffset.toNat (decodeAt program o))) ∧
    ∀ text, disassemble program = .ok text →
      ∃ items, instructions program = .ok items ∧
        text = render (listingLines program.length items) ∧
        (∀ before o i after, items = before ++ (o, i) :: after → m.At o →
          m.Fetches i ∧
          m.step h' = m.stepWith h' (.ok (i, m.programOffset.toNat + (o + i.size))) ∧
          ∀ m₂ h₂, m.step h' = (m₂, h₂, .running) → m.target? i = none →
            (∀ q ∈ after.head?, m₂.At q.1) ∧ (after = [] → m₂.step h₂ = (m₂, h₂, .halted))) ∧
        (m.At program.length → m.step h' = (m, h', .halted)) := by
  have hl : m.Loaded program := by
    have hl := (Installed.of_install hm).loaded.after_steps hw
    rwa [hs] at hl
  refine ⟨?_, fun o ho ha => ⟨?_, hl.step_eq ho ha h'⟩, fun text ht => ?_⟩
  · have hp := programOffset_steps n m₁ h
    rwa [hs] at hp
  · rw [(hl.at_iff (Nat.le_of_lt ho)).1 ha, hl.decodeAt_memory]
  rcases disassemble_eq_ok_iff.1 ht with ⟨is, rfl, rfl⟩
  refine ⟨withOffsets 0 is, instructions_encodeAll is, rfl, ?_, fun ha => halts_of_end hl ha h'⟩
  intro before o i after hitems ha
  rcases withOffsets_eq_append hitems with ⟨-, hcode, hend, hnext⟩
  rw [Nat.sub_zero] at hcode
  have hle := (encode_prefix_drop_iff.1 hcode).1
  have hpos : 0 < i.size := i.opcode.size_pos
  have hread : decodeAt (encodeAll is) o = .ok (i, o + i.size) := decodeAt_eq_ok_iff.2 ⟨hcode, rfl⟩
  refine ⟨hl.fetches ha hcode, ?_, fun m₂ h₂ hstep hjump => ?_⟩
  · rw [hl.step_eq (by omega) ha, hread]
    rfl
  have he := (hl.fetches ha hcode).effect hstep
  have hsize := hl.size_eq
  -- The step may write to the program, but where the machine stands and halts does not depend on that.
  have hpast : (m₂.get .instruction).toNat = m.programOffset.toNat + (o + i.size) := by
    rw [he.next hjump, (hl.at_iff (by omega)).1 ha, Nat.add_assoc]
  refine ⟨fun q hq => ?_, fun hnil => step_eq_halted_iff.2 ?_⟩
  · have hto := hl.toNat_absolute hle
    rw [At, ← UInt32.toNat_inj, hpast, hnext q hq, absolute, he.programOffset]
    exact hto.symm
  · have hlast := hend hnil
    rw [he.size, hpast]
    omega

/-- After `push R0` the `nop` behind it is executed, and then the machine halts. -/
theorem steps_follow_listing_to_end : ∃ m₁ m m₂ h₁ h₂, (empty 8).install [11, 0, 0] = .ok m₁ ∧
    (∀ k < 1, (steps k m₁ (WordQueue.ofWords [])).1.WritesBelow) ∧
    steps 1 m₁ (WordQueue.ofWords []) = (m, h₁) ∧ m.At 2 ∧ m.Fetches ⟨.nop, .none⟩ ∧
    m.step h₁ = (m₂, h₂, .running) ∧ m₂.step h₂ = (m₂, h₂, .halted) := by
  let q := WordQueue.ofWords []
  have hruns : ((empty 8).install [11, 0, 0]).toOption.any (fun m => decide (
      m.WritesBelow ∧ (steps 1 m q).1.get .instruction = 7 ∧ (steps 1 m q).1.programOffset = 5 ∧
      ((steps 1 m q).1.step (steps 1 m q).2).2.2 = .running)) = true := by decide +kernel
  have hlist : disassemble [11, 0, 0] = .ok (render (listing [⟨.push, .reg ⟨0⟩⟩, ⟨.nop, .none⟩])) :=
    disassemble_encodeAll [⟨.push, .reg ⟨0⟩⟩, ⟨.nop, .none⟩]
  have hitems : instructions [11, 0, 0] = .ok [(0, ⟨.push, .reg ⟨0⟩⟩), (2, ⟨.nop, .none⟩)] :=
    instructions_encodeAll [⟨.push, .reg ⟨0⟩⟩, ⟨.nop, .none⟩]
  cases hm : (empty 8).install [11, 0, 0] with
  | error f =>
    rw [hm] at hruns
    cases hruns
  | ok m =>
    rw [hm] at hruns
    rcases of_decide_eq_true hruns with ⟨hbelow, hpos, hoff, hrun⟩
    have hw : ∀ k < 1, (steps k m q).1.WritesBelow := by
      intro k hk
      obtain rfl : k = 0 := by omega
      exact hbelow
    have hat : (steps 1 m q).1.At 2 := by
      rw [At, absolute, hpos, hoff]
      rfl
    have hstep : (steps 1 m q).1.step (steps 1 m q).2 = (((steps 1 m q).1.step (steps 1 m q).2).1,
        ((steps 1 m q).1.step (steps 1 m q).2).2.1, .running) := by rw [← hrun]
    rcases (steps_follow_listing hm hw rfl).2.2 _ hlist with ⟨items, hi, -, hlisted, -⟩
    rw [hitems] at hi
    cases hi
    rcases hlisted [(0, ⟨.push, .reg ⟨0⟩⟩)] 2 ⟨.nop, .none⟩ [] rfl hat with ⟨hf, -, hnext⟩
    exact ⟨m, _, _, _, _, rfl, hw, rfl, hat, hf, hstep, (hnext _ _ hstep rfl).2 rfl⟩

end WordMachine.Machine
