import WordMachine.Instruction.Codec
import WordMachine.Machine
import WordMachine.Machine.Host

/-!
# Running a machine

A step executes the instruction that the instruction pointer points to. It halts when the pointer
lies past memory. An instruction that fails leaves the pointer where it is; of the rest of the machine
it has changed at most the stack pointer.
-/

namespace WordMachine

/-- How a step or a run ends. -/
inductive Outcome
  | running
  | halted
  | fault (f : Fault)
deriving DecidableEq

/-- A word shifted left by an amount that is not negative as a signed number, else right by its
opposite. Nothing of the word is left after 32 places. -/
def Word.shift (w amount : Word) : Word :=
  if 0 ≤ amount.signed then
    if amount < 32 then w <<< amount else 0
  else
    if -amount < 32 then w >>> (-amount) else 0

namespace Machine

/-- The version that `stat` reports. -/
def version : Word := 1

def absolute (m : Machine) (offset : Word) : Word := offset + m.programOffset

def load (m : Machine) (r : Register) (address : Word) (width : Nat) (next : Word) :
    Machine × Except Fault Word :=
  if m.memory.Holds address width then (m.set r (m.memory.read address width), .ok next)
  else (m, .error (.outOfBounds address width))

/-- Stores the low bytes of a word at an address, and goes on at `next`. -/
def store (m : Machine) (address : Word) (width : Nat) (w next : Word) :
    Machine × Except Fault Word :=
  if m.memory.Holds address width then
    ({ m with memory := m.memory.write address width w }, .ok next)
  else (m, .error (.outOfBounds address width))

def push (m : Machine) (w next : Word) : Machine × Except Fault Word :=
  let top := m.get .stack - 4
  (m.set .stack top).store top 4 w next

def pop (m : Machine) : Machine × Except Fault Word :=
  let top := m.get .stack
  if m.memory.Holds top 4 then (m.set .stack (top + 4), .ok (m.memory.read top 4))
  else (m, .error (.outOfBounds top 4))

/-- Divides two registers of an instruction at an address, and goes on at `next`. -/
def divide (m : Machine) (f : Word → Word → Word) (a b : Register) (address next : Word) :
    Machine × Except Fault Word :=
  if m.get b = 0 then (m, .error (.divisionByZero address))
  else (m.set a (f (m.get a) (m.get b)), .ok next)

def combine (m : Machine) (f : Word → Word → Word) (a b : Register) (next : Word) :
    Machine × Except Fault Word :=
  (m.set a (f (m.get a) (m.get b)), .ok next)

/-- Goes to an offset in the program if a condition holds, else to `next`. -/
def jumpIf (m : Machine) (taken : Bool) (target next : Word) : Machine × Except Fault Word :=
  (m, .ok (if taken then m.absolute target else next))

/-- What an instruction at `address` does to the machine itself, and where it goes on; `next` is the
address just past it. Of reading and writing words the host does everything. -/
def compute (m : Machine) (address next : Word) :
    (i : Instruction Word) → Machine × Except Fault Word
  | ⟨.nop, .none⟩ => (m, .ok next)
  | ⟨.stat, .none⟩ =>
    let size := UInt32.ofNat m.memory.size
    let start := m.programOffset
    (((m.set ⟨0⟩ version).set ⟨1⟩ size).set ⟨2⟩ start, .ok next)
  | ⟨.set, .regVal a v⟩ => (m.set a v, .ok next)
  | ⟨.input, .reg _⟩ => (m, .ok next)
  | ⟨.output, .reg _⟩ => (m, .ok next)
  | ⟨.store8, .regReg a b⟩ => m.store (m.get a) 1 (m.get b) next
  | ⟨.store16, .regReg a b⟩ => m.store (m.get a) 2 (m.get b) next
  | ⟨.store32, .regReg a b⟩ => m.store (m.get a) 4 (m.get b) next
  | ⟨.load8, .regReg a b⟩ => m.load a (m.get b) 1 next
  | ⟨.load16, .regReg a b⟩ => m.load a (m.get b) 2 next
  | ⟨.load32, .regReg a b⟩ => m.load a (m.get b) 4 next
  | ⟨.push, .reg a⟩ => m.push (m.get a) next
  | ⟨.pop, .reg a⟩ =>
    match m.pop with
    | (m, .ok w) => (m.set a w, .ok next)
    | (m, .error f) => (m, .error f)
  | ⟨.mov, .regReg a b⟩ => m.combine (fun _ y => y) a b next
  | ⟨.add, .regReg a b⟩ =>
    let x := m.get a
    let y := m.get b
    ({ m.set a (x + y) with flags.overflow := x + y < y }, .ok next)
  | ⟨.sub, .regReg a b⟩ =>
    let x := m.get a
    let y := m.get b
    ({ m.set a (x - y) with flags.overflow := x < y }, .ok next)
  | ⟨.smul, .regReg a b⟩ => m.combine (fun x y => (x.toInt32 * y.toInt32).toUInt32) a b next
  | ⟨.umul, .regReg a b⟩ => m.combine (· * ·) a b next
  | ⟨.sdiv, .regReg a b⟩ => m.divide (fun x y => (x.toInt32 / y.toInt32).toUInt32) a b address next
  | ⟨.udiv, .regReg a b⟩ => m.divide (· / ·) a b address next
  | ⟨.smod, .regReg a b⟩ => m.divide (fun x y => (x.toInt32 % y.toInt32).toUInt32) a b address next
  | ⟨.umod, .regReg a b⟩ => m.divide (· % ·) a b address next
  | ⟨.neg, .reg a⟩ => (m.set a (-m.get a), .ok next)
  | ⟨.and, .regReg a b⟩ => m.combine (· &&& ·) a b next
  | ⟨.or, .regReg a b⟩ => m.combine (· ||| ·) a b next
  | ⟨.xor, .regReg a b⟩ => m.combine (· ^^^ ·) a b next
  | ⟨.shift, .regReg a b⟩ => m.combine Word.shift a b next
  | ⟨.not, .reg a⟩ => (m.set a (~~~m.get a), .ok next)
  | ⟨.call, .label t⟩ => m.push next (m.absolute t)
  | ⟨.ret, .none⟩ => m.pop
  | ⟨.jmp, .label t⟩ => m.jumpIf true t next
  | ⟨.jiz, .label t⟩ => m.jumpIf m.flags.zero t next
  | ⟨.juz, .label t⟩ => m.jumpIf (!m.flags.zero) t next
  | ⟨.jis, .label t⟩ => m.jumpIf m.flags.sign t next
  | ⟨.jus, .label t⟩ => m.jumpIf (!m.flags.sign) t next
  | ⟨.jio, .label t⟩ => m.jumpIf m.flags.overflow t next
  | ⟨.juo, .label t⟩ => m.jumpIf (!m.flags.overflow) t next
  | ⟨.jmpr, .reg a⟩ => m.jumpIf true (m.get a) next

variable {σ : Type} [Host σ]

/-- Executes an instruction at `address`, and says where to go on; `next` is the address just past
it. -/
def execute (m : Machine) (h : σ) (address next : Word) :
    (i : Instruction Word) → Machine × σ × Except Fault Word
  | ⟨.input, .reg a⟩ =>
    match Host.read h with
    | (.ok w, h) => (m.set a w, h, .ok next)
    | (.error reason, h) => (m, h, .error (.hostFailure address reason))
  | ⟨.output, .reg a⟩ =>
    match Host.write h (m.get a) with
    | (.ok (), h) => (m, h, .ok next)
    | (.error reason, h) => (m, h, .error (.hostFailure address reason))
  | i =>
    let (m, result) := m.compute address next i
    (m, h, result)

/-- The flags after an instruction that has succeeded. -/
def flagsAfter (m : Machine) (i : Instruction Word) : Flags :=
  match i.operands.first? with
  | some r => if i.opcode.setsFlags then m.flags.describe (m.get r) else m.flags
  | none => m.flags

def fetch (m : Machine) (address : Word) : Except Fault (Instruction Word) :=
  match Instruction.decode (m.memory.window address 6) with
  | .ok i => .ok i
  | .error (.invalidOpcode b) => .error (.invalidOpcode b address)
  | .error .truncated => .error (.truncatedInstruction address)

/-- Executes the instruction at the instruction pointer, unless the pointer lies past memory. -/
def step (m : Machine) (h : σ) : Machine × σ × Outcome :=
  let address := m.get .instruction
  if m.memory.size ≤ address.toNat then (m, h, .halted)
  else
    match m.fetch address with
    | .error f => (m, h, .fault f)
    | .ok i =>
      match m.execute h address (address + UInt32.ofNat i.size) i with
      | (m, h, .error f) => (m, h, .fault f)
      | (m, h, .ok next) =>
        let flags := m.flagsAfter i
        ({ m with flags, registers := m.registers.set .instruction next }, h, .running)

/-- Takes steps until one does not end with a running machine, at most a number of them. -/
def run : Nat → Machine → σ → Machine × σ × Outcome
  | 0, m, h => (m, h, .running)
  | n + 1, m, h =>
    match m.step h with
    | (m, h, .running) => run n m h
    | (m, h, outcome) => (m, h, outcome)

end Machine

end WordMachine
