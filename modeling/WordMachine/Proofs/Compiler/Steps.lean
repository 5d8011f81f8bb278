import WordMachine.Compiler.Code
import WordMachine.Proofs.Machine.Placement

/-!
# Steps of compiled code

What a machine does at each line that compiled programs are made of. An instruction that gives a
result puts it into one register (`settle`), a jump only moves the instruction pointer (`goto`).
-/

namespace WordMachine

/-- Whether the host reads or writes a word for the instruction. -/
def Opcode.asksHost (o : Opcode) : Bool := o = .input || o = .output

theorem Register.stack_ne_instruction : Register.stack ≠ Register.instruction := by decide

def Flags.Describes (f : Flags) (w : Word) : Prop :=
  f.zero = decide (w = 0) ∧ f.sign = decide (w.signed < 0)

theorem Flags.describes_describe (f : Flags) (w : Word) : (f.describe w).Describes w := ⟨rfl, rfl⟩

namespace Machine

def goto (m : Machine) (next : Word) : Machine :=
  { m with registers := m.registers.set .instruction next }

def settle (m : Machine) (r : Register) (w : Word) (f : Flags) (next : Word) : Machine :=
  { m with registers := (m.registers.set r w).set .instruction next, flags := f }

def deposit (m : Machine) (a w next : Word) : Machine :=
  { m with memory := m.memory.write a 4 w, registers := m.registers.set .instruction next }

/-- The machine with a word on top of its stack and another instruction pointer. -/
def pushed (m : Machine) (w next : Word) : Machine :=
  (m.set .stack (m.get .stack - 4)).deposit (m.get .stack - 4) w next

section

variable (m : Machine) (a w next : Word) (r q : Register) (f : Flags)

@[simp] theorem get_set : (m.set r w).get q = if q = r then w else m.get q :=
  m.registers.get_set r q w

@[simp] theorem get_goto : (m.goto next).get q = if q = .instruction then next else m.get q :=
  m.registers.get_set .instruction q next

@[simp] theorem get_settle :
    (m.settle r w f next).get q = if q = .instruction then next else if q = r then w else m.get q :=
  ((m.registers.set r w).get_set .instruction q next).trans (by rw [RegisterFile.get_set]; rfl)

@[simp] theorem get_deposit : (m.deposit a w next).get q = if q = .instruction then next else m.get q :=
  m.registers.get_set .instruction q next

@[simp] theorem get_pushed : (m.pushed w next).get q =
    if q = .instruction then next else if q = .stack then m.get .stack - 4 else m.get q := by
  rw [pushed, get_deposit, get_set]

@[simp] theorem memory_set : (m.set r w).memory = m.memory := rfl
@[simp] theorem memory_goto : (m.goto next).memory = m.memory := rfl
@[simp] theorem memory_settle : (m.settle r w f next).memory = m.memory := rfl
@[simp] theorem memory_deposit : (m.deposit a w next).memory = m.memory.write a 4 w := rfl
@[simp] theorem memory_pushed :
    (m.pushed w next).memory = m.memory.write (m.get .stack - 4) 4 w := rfl

@[simp] theorem programOffset_set : (m.set r w).programOffset = m.programOffset := rfl
@[simp] theorem programOffset_goto : (m.goto next).programOffset = m.programOffset := rfl
@[simp] theorem programOffset_settle : (m.settle r w f next).programOffset = m.programOffset := rfl
@[simp] theorem programOffset_deposit : (m.deposit a w next).programOffset = m.programOffset := rfl
@[simp] theorem programOffset_pushed : (m.pushed w next).programOffset = m.programOffset := rfl

@[simp] theorem flags_settle : (m.settle r w f next).flags = f := rfl

end

/-! ### The parts of instructions -/

section

variable {m : Machine} {r a b : Register} {w address next : Word} {width : Nat} {f : Word → Word → Word}

theorem load_of_holds (hb : m.memory.Holds w width) :
    m.load r w width next = (m.set r (m.memory.read w width), .ok next) := if_pos hb

theorem load_of_not_holds (hb : ¬m.memory.Holds w width) :
    m.load r w width next = (m, .error (.outOfBounds w width)) := if_neg hb

theorem store_of_holds {v : Word} (hb : m.memory.Holds w width) :
    m.store w width v next = ({ m with memory := m.memory.write w width v }, .ok next) := if_pos hb

theorem store_of_not_holds {v : Word} (hb : ¬m.memory.Holds w width) :
    m.store w width v next = (m, .error (.outOfBounds w width)) := if_neg hb

theorem push_of_holds (hb : m.memory.Holds (m.get .stack - 4) 4) :
    m.push w next = ({ m.set .stack (m.get .stack - 4) with
      memory := m.memory.write (m.get .stack - 4) 4 w }, .ok next) := store_of_holds hb

theorem push_of_not_holds (hb : ¬m.memory.Holds (m.get .stack - 4) 4) :
    m.push w next =
      (m.set .stack (m.get .stack - 4), .error (.outOfBounds (m.get .stack - 4) 4)) :=
  store_of_not_holds hb

theorem pop_of_holds (hb : m.memory.Holds (m.get .stack) 4) :
    m.pop = (m.set .stack (m.get .stack + 4), .ok (m.memory.read (m.get .stack) 4)) := if_pos hb

theorem pop_of_not_holds (hb : ¬m.memory.Holds (m.get .stack) 4) :
    m.pop = (m, .error (.outOfBounds (m.get .stack) 4)) := if_neg hb

theorem divide_of_ne_zero (hb : m.get b ≠ 0) :
    m.divide f a b address next = (m.set a (f (m.get a) (m.get b)), .ok next) := if_neg hb

theorem divide_of_eq_zero (hb : m.get b = 0) :
    m.divide f a b address next = (m, .error (.divisionByZero address)) := if_pos hb

end

section

open Assembly

theorem Loaded.step_placed {σ : Type} [Host σ] {labels : Labels} {program : List UInt8} {m : Machine}
    {o : Nat} {rest : List Line} {i : Instruction Value} {j : Instruction Word}
    (hl : m.Loaded program) (ha : m.At o) (hp : Placed labels program o (.instruction i :: rest))
    (hj : i.traverse (Value.resolve true labels) = .ok j) (h : σ) :
    m.step h = conclude j
      (m.execute h (m.absolute (UInt32.ofNat o)) (m.absolute (UInt32.ofNat (o + j.size))) j) := by
  obtain ⟨⟨k, hk, hi⟩, _⟩ := hp
  rw [hj] at hk
  cases hk
  exact hl.step ha hi h

/-- What an instruction that the host has no part in does at a step. -/
theorem Loaded.step_computed {σ : Type} [Host σ] {labels : Labels} {program : List UInt8}
    {m m' : Machine} {o : Nat} {rest : List Line} {i : Instruction Value} {j : Instruction Word}
    {result : Except Fault Word} (hl : m.Loaded program) (ha : m.At o)
    (hp : Placed labels program o (.instruction i :: rest))
    (hj : i.traverse (Value.resolve true labels) = .ok j)
    (ho : j.opcode.asksHost = false)
    (hc : m.compute (m.absolute (UInt32.ofNat o)) (m.absolute (UInt32.ofNat (o + j.size))) j =
      (m', result)) (h : σ) : m.step h = conclude j (m', h, result) := by
  rw [hl.step_placed ha hp hj h, execute]
  · rw [hc]
  · intro a he
    subst he
    cases ho
  · intro a he
    subst he
    cases ho

theorem conclude_described {σ : Type} {i : Instruction Word} {a : Register}
    (hf : i.operands.first? = some a) (hs : i.opcode.setsFlags = true) (m : Machine) (h : σ)
    (w next : Word) (f : Flags) :
    ∃ g : Flags, g.Describes w ∧
      conclude i ({ m.set a w with flags := f }, h, .ok next) = (m.settle a w g next, h, .running) := by
  have hget : ({ m.set a w with flags := f } : Machine).get a = w := by
    show (m.registers.set a w).get a = w
    rw [RegisterFile.get_set, if_pos rfl]
  refine ⟨f.describe w, f.describes_describe w, ?_⟩
  simp only [conclude, flagsAfter, hf, hs, if_true, hget]
  rfl

end

/-! ### The lines -/

section

open Assembly Compiler

variable {σ : Type} [Host σ] {labels : Labels} {program : List UInt8} {m : Machine} {o : Nat}
  {rest : Code} {r a b : Register} {l : Label} {v : Word}

theorem step_set {n : Nat} (hl : m.Loaded program) (ha : m.At o)
    (hp : Placed labels program o (Code.set r n :: rest)) (h : σ) :
    m.step h = (m.settle r (UInt32.ofNat n) m.flags (m.absolute (UInt32.ofNat (o + 6))), h,
      .running) := by
  rw [← Word.ofInt_natCast n]
  exact hl.step_placed ha hp rfl h

theorem step_mov (hl : m.Loaded program) (ha : m.At o)
    (hp : Placed labels program o (Code.mov a b :: rest)) (h : σ) :
    m.step h = (m.settle a (m.get b) m.flags (m.absolute (UInt32.ofNat (o + 3))), h, .running) :=
  hl.step_placed ha hp rfl h

theorem step_load (hl : m.Loaded program) (ha : m.At o)
    (hp : Placed labels program o (Code.load a b :: rest)) (hb : m.memory.Holds (m.get b) 4) (h : σ) :
    m.step h = (m.settle a (m.memory.read (m.get b) 4) m.flags
      (m.absolute (UInt32.ofNat (o + 3))), h, .running) := by
  rw [hl.step_computed ha hp rfl rfl (load_of_holds hb) h]
  rfl

theorem step_load_fault (hl : m.Loaded program) (ha : m.At o)
    (hp : Placed labels program o (Code.load a b :: rest)) (hb : ¬m.memory.Holds (m.get b) 4) (h : σ) :
    m.step h = (m, h, .fault (.outOfBounds (m.get b) 4)) := by
  rw [hl.step_computed ha hp rfl rfl (load_of_not_holds hb) h]
  rfl

theorem step_store (hl : m.Loaded program) (ha : m.At o)
    (hp : Placed labels program o (Code.store a b :: rest)) (hb : m.memory.Holds (m.get a) 4) (h : σ) :
    m.step h = (m.deposit (m.get a) (m.get b) (m.absolute (UInt32.ofNat (o + 3))), h, .running) := by
  rw [hl.step_computed ha hp rfl rfl (store_of_holds hb) h]
  rfl

theorem step_store_fault (hl : m.Loaded program) (ha : m.At o)
    (hp : Placed labels program o (Code.store a b :: rest)) (hb : ¬m.memory.Holds (m.get a) 4)
    (h : σ) : m.step h = (m, h, .fault (.outOfBounds (m.get a) 4)) := by
  rw [hl.step_computed ha hp rfl rfl (store_of_not_holds hb) h]
  rfl

theorem step_push (hl : m.Loaded program) (ha : m.At o)
    (hp : Placed labels program o (Code.push r :: rest))
    (hb : m.memory.Holds (m.get .stack - 4) 4) (h : σ) :
    m.step h = (m.pushed (m.get r) (m.absolute (UInt32.ofNat (o + 2))), h, .running) := by
  rw [hl.step_computed ha hp rfl rfl (push_of_holds hb) h]
  rfl

theorem step_push_fault (hl : m.Loaded program) (ha : m.At o)
    (hp : Placed labels program o (Code.push r :: rest))
    (hb : ¬m.memory.Holds (m.get .stack - 4) 4) (h : σ) :
    m.step h = (m.set .stack (m.get .stack - 4), h,
      .fault (.outOfBounds (m.get .stack - 4) 4)) := by
  rw [hl.step_computed ha hp rfl rfl (push_of_not_holds hb) h]
  rfl

theorem step_pop (hl : m.Loaded program) (ha : m.At o)
    (hp : Placed labels program o (Code.pop r :: rest)) (hb : m.memory.Holds (m.get .stack) 4)
    (h : σ) :
    m.step h = ((m.set .stack (m.get .stack + 4)).settle r (m.memory.read (m.get .stack) 4) m.flags
      (m.absolute (UInt32.ofNat (o + 2))), h, .running) := by
  have hc (next : Word) : m.compute (m.absolute (UInt32.ofNat o)) next ⟨.pop, .reg r⟩ =
      ((m.set .stack (m.get .stack + 4)).set r (m.memory.read (m.get .stack) 4), .ok next) := by
    rw [compute, pop_of_holds hb]
  rw [hl.step_computed ha hp rfl rfl (hc _) h]
  rfl

theorem step_pop_fault (hl : m.Loaded program) (ha : m.At o)
    (hp : Placed labels program o (Code.pop r :: rest)) (hb : ¬m.memory.Holds (m.get .stack) 4)
    (h : σ) : m.step h = (m, h, .fault (.outOfBounds (m.get .stack) 4)) := by
  have hc (next : Word) : m.compute (m.absolute (UInt32.ofNat o)) next ⟨.pop, .reg r⟩ =
      (m, .error (.outOfBounds (m.get .stack) 4)) := by
    rw [compute, pop_of_not_holds hb]
  rw [hl.step_computed ha hp rfl rfl (hc _) h]
  rfl

/-! ### Results that set the flags -/

/-- The operation of a two-register instruction that sets the flags and cannot fail. -/
inductive Combines : (Register → Register → Line) → (Word → Word → Word) → Prop
  | add : Combines Code.add (· + ·)
  | sub : Combines Code.sub (· - ·)
  | smul : Combines Code.smul (fun x y => (x.toInt32 * y.toInt32).toUInt32)
  | and : Combines Code.and (· &&& ·)
  | or : Combines Code.or (· ||| ·)
  | xor : Combines Code.xor (· ^^^ ·)

theorem step_combine {line : Register → Register → Line} {f : Word → Word → Word}
    (hc : Combines line f) (hl : m.Loaded program) (ha : m.At o)
    (hp : Placed labels program o (line a b :: rest)) (h : σ) :
    ∃ g : Flags, g.Describes (f (m.get a) (m.get b)) ∧
      m.step h = (m.settle a (f (m.get a) (m.get b)) g (m.absolute (UInt32.ofNat (o + 3))), h,
        .running) := by
  cases hc <;> rw [hl.step_placed ha hp rfl h] <;> exact conclude_described rfl rfl m h _ _ _

/-- The operation of a two-register instruction that divides. -/
inductive Divides : (Register → Register → Line) → (Word → Word → Word) → Prop
  | sdiv : Divides Code.sdiv (fun x y => (x.toInt32 / y.toInt32).toUInt32)
  | smod : Divides Code.smod (fun x y => (x.toInt32 % y.toInt32).toUInt32)

theorem step_divide {line : Register → Register → Line} {f : Word → Word → Word}
    (hc : Divides line f) (hl : m.Loaded program) (ha : m.At o)
    (hp : Placed labels program o (line a b :: rest)) (hb : m.get b ≠ 0) (h : σ) :
    ∃ g : Flags, m.step h = (m.settle a (f (m.get a) (m.get b)) g
      (m.absolute (UInt32.ofNat (o + 3))), h, .running) := by
  have hd (address next : Word) : m.divide f a b address next =
      (m.set a (f (m.get a) (m.get b)), .ok next) := divide_of_ne_zero hb
  cases hc <;> rw [hl.step_computed ha hp rfl rfl (hd _ _) h] <;>
    exact (conclude_described rfl rfl m h _ _ m.flags).imp fun _ hg => hg.2

theorem step_divide_fault {line : Register → Register → Line} {f : Word → Word → Word}
    (hc : Divides line f) (hl : m.Loaded program) (ha : m.At o)
    (hp : Placed labels program o (line a b :: rest)) (hb : m.get b = 0) (h : σ) :
    m.step h = (m, h, .fault (.divisionByZero (m.absolute (UInt32.ofNat o)))) := by
  have hd (address next : Word) : m.divide f a b address next =
      (m, .error (.divisionByZero address)) := divide_of_eq_zero hb
  cases hc <;> rw [hl.step_computed ha hp rfl rfl (hd _ _) h] <;> rfl

/-- The operation of a one-register instruction that sets the flags. -/
inductive Converts : (Register → Line) → (Word → Word) → Prop
  | neg : Converts Code.neg (-·)
  | not : Converts Code.not (~~~·)

theorem step_convert {line : Register → Line} {f : Word → Word} (hc : Converts line f)
    (hl : m.Loaded program) (ha : m.At o) (hp : Placed labels program o (line a :: rest)) (h : σ) :
    ∃ g : Flags, m.step h = (m.settle a (f (m.get a)) g (m.absolute (UInt32.ofNat (o + 2))), h,
      .running) := by
  cases hc <;> rw [hl.step_placed ha hp rfl h] <;>
    exact (conclude_described rfl rfl m h _ _ m.flags).imp fun _ hg => hg.2

/-! ### Jumps -/

theorem resolve_label {name : String} (hv : labels.get? name = some v) :
    Value.resolve true labels (.label name) = .ok v := by
  rw [Value.resolve, hv]

theorem step_jmp (hl : m.Loaded program) (ha : m.At o)
    (hp : Placed labels program o (Code.jmp l :: rest)) (hv : labels.get? l.text = some v) (h : σ) :
    m.step h = (m.goto (m.absolute v), h, .running) := by
  have hj : Instruction.traverse (Value.resolve true labels) ⟨.jmp, .label (.label l.text)⟩ =
      .ok ⟨.jmp, .label v⟩ := by
    simp only [Instruction.traverse, Operands.traverse, resolve_label hv]
    rfl
  exact hl.step_placed ha hp hj h

/-- The flag that a conditional jump looks at. -/
inductive Branches : (Label → Line) → (Flags → Bool) → Prop
  | jiz : Branches Code.jiz Flags.zero
  | jis : Branches Code.jis Flags.sign

theorem step_branch {jump : Label → Line} {c : Flags → Bool} (hc : Branches jump c)
    (hl : m.Loaded program) (ha : m.At o) (hp : Placed labels program o (jump l :: rest))
    (hv : labels.get? l.text = some v) (h : σ) :
    m.step h = (m.goto (if c m.flags then m.absolute v else m.absolute (UInt32.ofNat (o + 5))), h,
      .running) := by
  cases hc with
  | jiz =>
    have hj : Instruction.traverse (Value.resolve true labels) ⟨.jiz, .label (.label l.text)⟩ =
        .ok ⟨.jiz, .label v⟩ := by
      simp only [Instruction.traverse, Operands.traverse, resolve_label hv]
      rfl
    exact hl.step_placed ha hp hj h
  | jis =>
    have hj : Instruction.traverse (Value.resolve true labels) ⟨.jis, .label (.label l.text)⟩ =
        .ok ⟨.jis, .label v⟩ := by
      simp only [Instruction.traverse, Operands.traverse, resolve_label hv]
      rfl
    exact hl.step_placed ha hp hj h

theorem traverse_call (hv : labels.get? l.text = some v) :
    Instruction.traverse (Value.resolve true labels) ⟨.call, .label (.label l.text)⟩ =
      .ok ⟨.call, .label v⟩ := by
  simp only [Instruction.traverse, Operands.traverse, resolve_label hv]
  rfl

theorem step_call (hl : m.Loaded program) (ha : m.At o)
    (hp : Placed labels program o (Code.call l :: rest)) (hv : labels.get? l.text = some v)
    (hb : m.memory.Holds (m.get .stack - 4) 4) (h : σ) :
    m.step h = (m.pushed (m.absolute (UInt32.ofNat (o + 5))) (m.absolute v), h, .running) := by
  rw [hl.step_computed ha hp (traverse_call hv) rfl (push_of_holds hb) h]
  rfl

theorem step_call_fault (hl : m.Loaded program) (ha : m.At o)
    (hp : Placed labels program o (Code.call l :: rest)) (hv : labels.get? l.text = some v)
    (hb : ¬m.memory.Holds (m.get .stack - 4) 4) (h : σ) :
    m.step h = (m.set .stack (m.get .stack - 4), h,
      .fault (.outOfBounds (m.get .stack - 4) 4)) := by
  rw [hl.step_computed ha hp (traverse_call hv) rfl (push_of_not_holds hb) h]
  rfl

theorem step_ret (hl : m.Loaded program) (ha : m.At o)
    (hp : Placed labels program o (Code.ret :: rest)) (hb : m.memory.Holds (m.get .stack) 4) (h : σ) :
    m.step h = ((m.set .stack (m.get .stack + 4)).goto (m.memory.read (m.get .stack) 4), h,
      .running) := by
  rw [hl.step_computed ha hp rfl rfl (pop_of_holds hb) h]
  rfl

theorem step_ret_fault (hl : m.Loaded program) (ha : m.At o)
    (hp : Placed labels program o (Code.ret :: rest)) (hb : ¬m.memory.Holds (m.get .stack) 4)
    (h : σ) : m.step h = (m, h, .fault (.outOfBounds (m.get .stack) 4)) := by
  rw [hl.step_computed ha hp rfl rfl (pop_of_not_holds hb) h]
  rfl

/-! ### The host -/

theorem step_input (hl : m.Loaded program) (ha : m.At o)
    (hp : Placed labels program o (Code.input r :: rest)) {h h' : σ} {w : Word}
    (hr : Host.read h = (.ok w, h')) :
    m.step h = (m.settle r w m.flags (m.absolute (UInt32.ofNat (o + 2))), h', .running) := by
  rw [hl.step_placed ha hp rfl h]
  simp only [execute, hr]
  rfl

theorem step_output (hl : m.Loaded program) (ha : m.At o)
    (hp : Placed labels program o (Code.output r :: rest)) {h h' : σ}
    (hw : Host.write h (m.get r) = (.ok (), h')) :
    m.step h = (m.goto (m.absolute (UInt32.ofNat (o + 2))), h', .running) := by
  rw [hl.step_placed ha hp rfl h]
  simp only [execute, hw]
  rfl

end

end Machine

end WordMachine
