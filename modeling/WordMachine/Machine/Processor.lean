import WordMachine.Machine.Step

/-!
# Processors

A processor is a machine that keeps one more word: its cursor. Reading an instruction moves the cursor
behind it, jumps, calls and returns move it elsewhere, and it is put into the instruction pointer when
the instruction has succeeded. After a fault it stays where it is. A processor goes through the steps of
its machine (`toMachine_step`).
-/

namespace WordMachine

structure Processor extends Machine where
  /-- the address of the next instruction -/
  cursor : Word

namespace Processor

def empty (size : Word) : Processor := ⟨.empty size, size⟩

def set (p : Processor) (r : Register) (w : Word) : Processor :=
  { p with toMachine := p.toMachine.set r w }

/-- Installs a program. One that is longer than memory leaves everything as it is. -/
def install (p : Processor) (program : List UInt8) : Processor × Except Fault Unit :=
  if p.memory.size < program.length then
    (p, .error (.programTooLarge program.length p.memory.size))
  else
    let m := p.toMachine.boot program
    (⟨m, m.programOffset⟩, .ok ())

/-- Reads the instruction at an address, and says where it ends. -/
def fetch (p : Processor) (address : Word) : Except Fault (Instruction Word × Word) :=
  match Instruction.decodeAt (p.memory.window address 6) 0 with
  | .ok (i, length) => .ok (i, address + UInt32.ofNat length)
  | .error (.invalidOpcode b) => .error (.invalidOpcode b address)
  | .error .truncated => .error (.truncatedInstruction address)

variable {σ : Type} [Host σ]

/-- Executes the instruction at the instruction pointer, unless the pointer lies past memory. -/
def step (p : Processor) (h : σ) : Processor × σ × Outcome :=
  let address := p.get .instruction
  if p.memory.size ≤ address.toNat then (p, h, .halted)
  else
    match p.fetch address with
    | .error f => (p, h, .fault f)
    | .ok (i, cursor) =>
      match p.execute h address cursor i with
      | (m, h, .error f) => (⟨m, cursor⟩, h, .fault f)
      | (m, h, .ok cursor) =>
        let p : Processor := ⟨{ m with flags := m.flagsAfter i }, cursor⟩
        (p.set .instruction p.cursor, h, .running)

/-- Takes steps until one does not end with a running processor, at most a number of them. -/
def run : Nat → Processor → σ → Processor × σ × Outcome
  | 0, p, h => (p, h, .running)
  | n + 1, p, h =>
    match p.step h with
    | (p, h, .running) => run n p h
    | (p, h, outcome) => (p, h, outcome)

/-! ### The machine of a processor -/

theorem fetch_eq (p : Processor) (address : Word) : p.fetch address =
    (p.toMachine.fetch address).map fun i => (i, address + UInt32.ofNat i.size) := by
  rw [fetch, Machine.fetch, Instruction.decodeAt_eq, List.drop_zero]
  cases Instruction.decode (p.memory.window address 6) with
  | error e => cases e <;> rfl
  | ok i => simp [Except.map]

/-- No step depends on where the cursor was left. -/
theorem toMachine_step (p : Processor) (h : σ) :
    ((p.step h).1.toMachine, (p.step h).2) = p.toMachine.step h := by
  rw [step, Machine.step, fetch_eq]
  by_cases hle : p.memory.size ≤ (p.get .instruction).toNat
  · simp only [if_pos hle]
  · simp only [if_neg hle]
    cases p.toMachine.fetch (p.get .instruction) with
    | error f => rfl
    | ok i =>
      simp only [Except.map]
      rcases p.execute h (p.get .instruction) (p.get .instruction + UInt32.ofNat i.size) i with
        ⟨m, h', f | cursor⟩
      · rfl
      · rfl

theorem toMachine_run (n : Nat) (p : Processor) (h : σ) :
    ((p.run n h).1.toMachine, (p.run n h).2) = p.toMachine.run n h := by
  induction n generalizing p h with
  | zero => rfl
  | succ n ih =>
    have hs := p.toMachine_step h
    rw [run, Machine.run, ← hs]
    rcases p.step h with ⟨p', h', _ | _ | f⟩
    · exact ih p' h'
    · rfl
    · rfl

theorem toMachine_install (p : Processor) (program : List UInt8) :
    (p.install program).2.map (fun _ => (p.install program).1.toMachine) =
      p.toMachine.install program := by
  rw [install, Machine.install]
  by_cases hlt : p.memory.size < program.length
  · rw [if_pos hlt, if_neg (by omega)]
    rfl
  · rw [if_neg hlt, if_pos (by omega)]
    rfl

end Processor

end WordMachine
