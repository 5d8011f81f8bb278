import WordMachine.Proofs.Machine.Outcomes

/-!
# What a step leaves behind

Where a step that leaves the machine running goes on, and all that it can have changed. The
instruction pointer moves last, so that a result put into it is lost; the flags describe that result
all the same.
-/

namespace WordMachine

/-- Whether an instruction with this opcode goes to the offset that it names. -/
def Flags.takes (f : Flags) : Opcode → Bool
  | .call | .jmp => true
  | .jiz => f.zero
  | .juz => !f.zero
  | .jis => f.sign
  | .jus => !f.sign
  | .jio => f.overflow
  | .juo => !f.overflow
  | _ => false

namespace Machine

/-- Where an instruction goes on, unless at the next one. -/
def target? (m : Machine) : Instruction Word → Option Word
  | ⟨.ret, .none⟩ => some (m.memory.read (m.get .stack) 4)
  | ⟨.jmpr, .reg a⟩ => some (m.absolute (m.get a))
  | i => if m.flags.takes i.opcode then i.operands.target?.map m.absolute else none

/-- The register that an instruction puts a result into, and the result. -/
def result? {σ : Type} [Host σ] (m : Machine) (h : σ) : Instruction Word → Option (Register × Word)
  | ⟨.set, .regVal a v⟩ => some (a, v)
  | ⟨.input, .reg a⟩ => (Host.read h).1.toOption.map fun w => (a, w)
  | ⟨.load8, .regReg a b⟩ => some (a, m.memory.read (m.get b) 1)
  | ⟨.load16, .regReg a b⟩ => some (a, m.memory.read (m.get b) 2)
  | ⟨.load32, .regReg a b⟩ => some (a, m.memory.read (m.get b) 4)
  | ⟨.pop, .reg a⟩ => some (a, m.memory.read (m.get .stack) 4)
  | ⟨.mov, .regReg a b⟩ => some (a, m.get b)
  | ⟨.add, .regReg a b⟩ => some (a, m.get a + m.get b)
  | ⟨.sub, .regReg a b⟩ => some (a, m.get a - m.get b)
  | ⟨.smul, .regReg a b⟩ => some (a, ((m.get a).toInt32 * (m.get b).toInt32).toUInt32)
  | ⟨.umul, .regReg a b⟩ => some (a, m.get a * m.get b)
  | ⟨.sdiv, .regReg a b⟩ => some (a, ((m.get a).toInt32 / (m.get b).toInt32).toUInt32)
  | ⟨.udiv, .regReg a b⟩ => some (a, m.get a / m.get b)
  | ⟨.smod, .regReg a b⟩ => some (a, ((m.get a).toInt32 % (m.get b).toInt32).toUInt32)
  | ⟨.umod, .regReg a b⟩ => some (a, m.get a % m.get b)
  | ⟨.neg, .reg a⟩ => some (a, -m.get a)
  | ⟨.and, .regReg a b⟩ => some (a, m.get a &&& m.get b)
  | ⟨.or, .regReg a b⟩ => some (a, m.get a ||| m.get b)
  | ⟨.xor, .regReg a b⟩ => some (a, m.get a ^^^ m.get b)
  | ⟨.shift, .regReg a b⟩ => some (a, (m.get a).shift (m.get b))
  | ⟨.not, .reg a⟩ => some (a, ~~~m.get a)
  | _ => none

/-- What an instruction that succeeds has done when the flags are yet to be set and the instruction
pointer is yet to move: the machine is `n` then, and goes on at `k`. -/
structure Succeeds {σ : Type} [Host σ] (m : Machine) (h : σ) (next : Word) (i : Instruction Word)
    (n : Machine) (k : Word) : Prop where
  target : k = (m.target? i).getD next
  result : ∀ a v, m.result? h i = some (a, v) → n.get a = v
  others : ∀ q, q ∉ i.written → n.get q = m.get q
  pushed : i.opcode = .push ∨ i.opcode = .call → n.get .stack = m.get .stack - 4
  popped : i.opcode = .pop ∨ i.opcode = .ret → (∀ v, m.result? h i ≠ some (.stack, v)) →
    n.get .stack = m.get .stack + 4
  unstored : i.stores = false → n.memory = m.memory
  stored : i.stores = true →
    ∃ a width w, m.access? i = some (a, width) ∧ n.memory = m.memory.write a width w
  flags : i.opcode ≠ .add → i.opcode ≠ .sub → n.flags = m.flags
  programOffset : n.programOffset = m.programOffset

/-- What a step that executes an instruction does to a machine. -/
structure Effect {σ : Type} [Host σ] (m : Machine) (h : σ) (i : Instruction Word) (m' : Machine) :
    Prop where
  jump : ∀ t, m.target? i = some t → m'.get .instruction = t
  next : m.target? i = none → (m'.get .instruction).toNat = (m.get .instruction).toNat + i.size
  result : ∀ a v, m.result? h i = some (a, v) → a ≠ .instruction → m'.get a = v
  others : ∀ q, q ≠ .instruction → q ∉ i.written → m'.get q = m.get q
  pushed : i.opcode = .push ∨ i.opcode = .call → m'.get .stack = m.get .stack - 4
  popped : i.opcode = .pop ∨ i.opcode = .ret → (∀ v, m.result? h i ≠ some (.stack, v)) →
    m'.get .stack = m.get .stack + 4
  memory : ∀ p, m'.memory.bytes[p]? ≠ m.memory.bytes[p]? → i.stores = true ∧
    ∃ a width, m.access? i = some (a, width) ∧ a.toNat ≤ p ∧ p < a.toNat + width
  size : m'.memory.size = m.memory.size
  described : i.opcode.setsFlags = true →
    ∃ a v, m.result? h i = some (a, v) ∧ m'.flags.Describes v
  undescribed : i.opcode.setsFlags = false → m'.flags = m.flags
  overflow : i.opcode ≠ .add → i.opcode ≠ .sub → m'.flags.overflow = m.flags.overflow
  programOffset : m'.programOffset = m.programOffset

variable {m n : Machine} {i : Instruction Word} {address next a k w : Word} {width : Nat}
  {r b : Register}

/-! ### The parts of instructions that succeed -/

theorem checked_eq_ok {c : Prop} [Decidable c] {n' : Machine} {g : Fault}
    (he : (if c then (n', Except.ok next) else (m, .error g)) = (n, .ok k)) : n = n' ∧ k = next := by
  by_cases hc : c
  · rw [if_pos hc] at he
    cases he
    exact ⟨rfl, rfl⟩
  · rw [if_neg hc] at he
    cases he

theorem load_eq_ok (he : m.load r a width next = (n, .ok k)) :
    n = m.set r (m.memory.read a width) ∧ k = next := checked_eq_ok he

theorem store_eq_ok (he : m.store a width w next = (n, .ok k)) :
    n = { m with memory := m.memory.write a width w } ∧ k = next := checked_eq_ok he

theorem push_eq_ok (he : m.push w next = (n, .ok k)) :
    n = { m.set .stack (m.get .stack - 4) with
      memory := m.memory.write (m.get .stack - 4) 4 w } ∧ k = next :=
  store_eq_ok (m := m.set .stack (m.get .stack - 4)) he

theorem pop_eq_ok (he : m.pop = (n, .ok k)) :
    n = m.set .stack (m.get .stack + 4) ∧ k = m.memory.read (m.get .stack) 4 := checked_eq_ok he

theorem divide_eq_ok {g : Word → Word → Word} (he : m.divide g r b address next = (n, .ok k)) :
    n = m.set r (g (m.get r) (m.get b)) ∧ k = next := by
  rw [divide, ← ite_not] at he
  exact checked_eq_ok he

theorem popInto_eq_ok (he : m.compute address next ⟨.pop, .reg r⟩ = (n, .ok k)) :
    n = (m.set .stack (m.get .stack + 4)).set r (m.memory.read (m.get .stack) 4) ∧ k = next := by
  by_cases hb : m.memory.Holds (m.get .stack) 4
  · rw [compute, pop_of_holds hb] at he
    cases he
    exact ⟨rfl, rfl⟩
  · rw [compute, pop_of_not_holds hb] at he
    cases he

theorem jumpIf_eq_ok {taken : Bool} (he : m.jumpIf taken w next = (n, .ok k)) :
    n = m ∧ k = (if taken then some (m.absolute w) else none).getD next := by
  cases he
  cases taken <;> exact ⟨rfl, rfl⟩

theorem get_set_self (m : Machine) (r : Register) (w : Word) : (m.set r w).get r = w := by
  rw [get_set, if_pos rfl]

/-! ### Instructions -/

theorem target_of_compute (hc : m.compute address next i = (n, .ok k)) :
    k = (m.target? i).getD next := by
  rcases i with ⟨o, x⟩
  cases o <;> cases x
  case store8 | store16 | store32 => exact (store_eq_ok hc).2
  case load8 | load16 | load32 => exact (load_eq_ok hc).2
  case push | call => exact (push_eq_ok hc).2
  case pop => exact (popInto_eq_ok hc).2
  case ret => exact (pop_eq_ok hc).2
  case sdiv | udiv | smod | umod =>
    -- the operation is a lambda term, which unification alone does not find
    rw [compute] at hc
    exact (divide_eq_ok hc).2
  case jmp | jiz | juz | jis | jus | jio | juo | jmpr => exact (jumpIf_eq_ok hc).2
  all_goals
    cases hc
    rfl

theorem result_of_compute {σ : Type} [Host σ] {h : σ} (ho : i.opcode ≠ .input)
    (hc : m.compute address next i = (n, .ok k)) (hr : m.result? h i = some (r, w)) :
    n.get r = w := by
  rcases i with ⟨o, x⟩
  cases o <;> cases x
  case input => exact absurd rfl ho
  case load8 | load16 | load32 =>
    cases hr
    rw [(load_eq_ok hc).1]
    exact get_set_self _ _ _
  case pop =>
    cases hr
    rw [(popInto_eq_ok hc).1]
    exact get_set_self _ _ _
  case sdiv | udiv | smod | umod =>
    cases hr
    rw [compute] at hc
    rw [(divide_eq_ok hc).1]
    exact get_set_self _ _ _
  case nop | stat | output | store8 | store16 | store32 | push | call | ret | jmp | jiz | juz | jis
    | jus | jio | juo | jmpr => cases hr
  all_goals
    cases hr
    cases hc
    exact get_set_self _ _ _

theorem stack_of_compute_push (ho : i.opcode = .push ∨ i.opcode = .call)
    (hc : m.compute address next i = (n, .ok k)) : n.get .stack = m.get .stack - 4 := by
  rcases i with ⟨o, x⟩
  rcases ho with rfl | rfl
  all_goals
    cases x
    rw [(push_eq_ok hc).1]
    exact get_set_self _ _ _

theorem stack_of_compute_pop {σ : Type} [Host σ] {h : σ} (ho : i.opcode = .pop ∨ i.opcode = .ret)
    (hr : ∀ v, m.result? h i ≠ some (.stack, v)) (hc : m.compute address next i = (n, .ok k)) :
    n.get .stack = m.get .stack + 4 := by
  rcases i with ⟨o, x⟩
  rcases ho with rfl | rfl
  · cases x with
    | reg a =>
      have ha : Register.stack ≠ a := fun ha => hr _ (by rw [ha]; rfl)
      rw [(popInto_eq_ok hc).1, get_set, if_neg ha, get_set_self]
  · cases x
    rw [(pop_eq_ok hc).1, get_set_self]

/-- An instruction that stores writes at the address that it accesses. -/
theorem memory_of_compute_store (hs : i.stores = true) (hc : m.compute address next i = (n, .ok k)) :
    ∃ a width w, m.access? i = some (a, width) ∧ n.memory = m.memory.write a width w := by
  rcases i with ⟨o, x⟩
  cases o <;> cases x
  case store8 | store16 | store32 =>
    rw [(store_eq_ok hc).1]
    exact ⟨_, _, _, rfl, rfl⟩
  case push | call =>
    rw [(push_eq_ok hc).1]
    exact ⟨_, _, _, rfl, rfl⟩
  all_goals cases hs

theorem flags_of_compute (ha : i.opcode ≠ .add) (hs : i.opcode ≠ .sub)
    (hc : m.compute address next i = (n, .ok k)) : n.flags = m.flags := by
  rcases i with ⟨o, x⟩
  cases o <;> cases x
  case store8 | store16 | store32 =>
    rw [(store_eq_ok hc).1]
  case load8 | load16 | load32 =>
    rw [(load_eq_ok hc).1]
    rfl
  case push | call =>
    rw [(push_eq_ok hc).1]
    rfl
  case pop =>
    rw [(popInto_eq_ok hc).1]
    rfl
  case ret =>
    rw [(pop_eq_ok hc).1]
    rfl
  case sdiv | udiv | smod | umod =>
    rw [compute] at hc
    rw [(divide_eq_ok hc).1]
    rfl
  case add => exact absurd rfl ha
  case sub => exact absurd rfl hs
  all_goals
    cases hc
    rfl

variable {σ : Type} [Host σ] {h h' : σ}

theorem succeeds_compute (ho : i.opcode ≠ .input) (hc : m.compute address next i = (n, .ok k)) :
    m.Succeeds h next i n k := by
  have hkept := changes_compute m address next i
  rw [hc] at hkept
  exact {
    target := target_of_compute hc
    result := fun _ _ hr => result_of_compute ho hc hr
    others := hkept.get
    pushed := fun hp => stack_of_compute_push hp hc
    popped := fun hp hr => stack_of_compute_pop hp hr hc
    unstored := hkept.memory
    stored := fun hs => memory_of_compute_store hs hc
    flags := fun ha hs => flags_of_compute ha hs hc
    programOffset := hkept.programOffset }

theorem succeeds_input (hr : (Host.read h).1 = .ok w) :
    m.Succeeds h next ⟨.input, .reg r⟩ (m.set r w) next where
  target := rfl
  result a v hv := by
    rw [result?, hr] at hv
    cases hv
    exact get_set_self m r w
  others q hq := by rw [get_set, if_neg (by simpa [Instruction.written, Operands.first?] using hq)]
  pushed ho := by rcases ho with ho | ho <;> cases ho
  popped ho := by rcases ho with ho | ho <;> cases ho
  unstored _ := rfl
  stored hs := by cases hs
  flags _ _ := rfl
  programOffset := rfl

theorem succeeds_output : m.Succeeds h next ⟨.output, .reg r⟩ m next := by
  have hc : m.compute 0 next ⟨.output, .reg r⟩ = (m, .ok next) := rfl
  exact succeeds_compute (by rintro ⟨⟩) hc

theorem succeeds_execute (he : m.execute h address next i = (n, h', .ok k)) :
    m.Succeeds h next i n k := by
  cases ho : i.opcode.asksHost with
  | false =>
    rw [execute_eq_compute ho] at he
    have hc : m.compute address next i = (n, .ok k) := by
      injection he with hn he
      injection he with _ hk
      exact Prod.ext hn hk
    refine succeeds_compute (fun hi => ?_) hc
    rw [hi] at ho
    cases ho
  | true =>
    rcases eq_of_asksHost ho with ⟨a, rfl | rfl⟩
    · rw [execute] at he
      cases hr : Host.read h with
      | mk answer h₁ =>
        rw [hr] at he
        cases answer with
        | error reason => cases he
        | ok w =>
          cases he
          exact succeeds_input (congrArg Prod.fst hr)
    · rw [execute] at he
      cases hw : Host.write h (m.get a) with
      | mk answer h₁ =>
        rw [hw] at he
        cases answer with
        | error reason => cases he
        | ok _ =>
          cases he
          exact succeeds_output

theorem first?_of_result? {v : Word} (hr : m.result? h i = some (r, v)) :
    i.operands.first? = some r := by
  rcases i with ⟨o, x⟩
  cases o <;> cases x
  case input a =>
    rw [result?, Option.map_eq_some_iff] at hr
    rcases hr with ⟨_, _, ha⟩
    cases ha
    rfl
  all_goals cases hr <;> rfl

/-! ### Steps -/

theorem exists_result_of_setsFlags (m : Machine) (h : σ) (hs : i.opcode.setsFlags = true) :
    ∃ a v, m.result? h i = some (a, v) ∧ i.operands.first? = some a := by
  rcases i with ⟨o, x⟩
  cases o
  case add | sub | smul | umul | sdiv | udiv | smod | umod | neg | and | or | xor | shift | not =>
    cases x
    exact ⟨_, _, rfl, rfl⟩
  all_goals cases hs

theorem flagsAfter_of_setsFlags (hs : i.opcode.setsFlags = true) (ha : i.operands.first? = some r) :
    n.flagsAfter i = n.flags.describe (n.get r) := by
  simp only [flagsAfter, ha, hs, if_true]

theorem flagsAfter_of_not_setsFlags (hs : i.opcode.setsFlags = false) :
    n.flagsAfter i = n.flags := by
  simp only [flagsAfter, hs]
  cases i.operands.first? <;> rfl

theorem overflow_flagsAfter : (n.flagsAfter i).overflow = n.flags.overflow := by
  rw [flagsAfter]
  cases i.operands.first? with
  | none => rfl
  | some r => cases i.opcode.setsFlags <;> rfl

theorem bounds_of_getElem?_write_ne {mem : Memory} {p : Nat}
    (h : (mem.write a width w).bytes[p]? ≠ mem.bytes[p]?) : a.toNat ≤ p ∧ p < a.toNat + width := by
  by_cases hp : a.toNat ≤ p ∧ p < a.toNat + width ∧ p < mem.size
  · exact ⟨hp.1, hp.2.1⟩
  · rw [Memory.getElem?_write, if_neg hp] at h
    exact absurd rfl h

theorem Succeeds.effect (hp : m.Succeeds h next i n k)
    (hn : next.toNat = (m.get .instruction).toNat + i.size) :
    m.Effect h i
      { n with flags := n.flagsAfter i, registers := n.registers.set .instruction k } := by
  have hget : ∀ q, (n.registers.set .instruction k).get q =
      if q = .instruction then k else n.get q := fun q => n.registers.get_set .instruction q k
  -- the register file after the step is that of `n` but for the instruction pointer
  exact {
    jump := fun t ht => by
      rw [get, hget, if_pos rfl, hp.target, ht, Option.getD_some]
    next := fun ht => by
      rw [get, hget, if_pos rfl, hp.target, ht, Option.getD_none, hn]
    result := fun a v hr ha => by
      rw [get, hget, if_neg ha, hp.result a v hr]
    others := fun q hq hw => by
      rw [get, hget, if_neg hq, hp.others q hw]
    pushed := fun ho => by
      rw [get, hget, if_neg Register.stack_ne_instruction, hp.pushed ho]
    popped := fun ho hr => by
      rw [get, hget, if_neg Register.stack_ne_instruction, hp.popped ho hr]
    memory := fun p hne => by
      cases hs : i.stores with
      | false => exact absurd (by rw [hp.unstored hs]) hne
      | true =>
        rcases hp.stored hs with ⟨a, width, w, ha, hm⟩
        rw [hm] at hne
        exact ⟨rfl, a, width, ha, bounds_of_getElem?_write_ne hne⟩
    size := by
      cases hs : i.stores with
      | false => rw [hp.unstored hs]
      | true =>
        rcases hp.stored hs with ⟨a, width, w, _, hm⟩
        rw [hm, Memory.size_write]
    described := fun hs => by
      rcases exists_result_of_setsFlags m h hs with ⟨a, v, hr, ha⟩
      refine ⟨a, v, hr, ?_⟩
      rw [flagsAfter_of_setsFlags hs ha, hp.result a v hr]
      exact Flags.describes_describe _ _
    undescribed := fun hs => by
      rw [flagsAfter_of_not_setsFlags hs]
      refine hp.flags (fun ho => ?_) (fun ho => ?_)
      all_goals
        rw [ho] at hs
        cases hs
    overflow := fun ha hb => by
      rw [overflow_flagsAfter, hp.flags ha hb]
    programOffset := hp.programOffset }

theorem Fetches.toNat_next (hf : m.Fetches i) : (m.get .instruction + UInt32.ofNat i.size).toNat =
    (m.get .instruction).toNat + i.size := by
  have hend := hf.end_le
  have hlt : m.memory.size < 4294967296 := m.memory.size_lt
  rw [UInt32.toNat_add, Word.toNat_ofNat_of_lt (by omega), Nat.mod_eq_of_lt (by omega)]

theorem Fetches.effect {m' : Machine} (hf : m.Fetches i) (hs : m.step h = (m', h', .running)) :
    m.Effect h i m' := by
  rw [hf.step] at hs
  cases he : m.execute h (m.get .instruction) (m.get .instruction + UInt32.ofNat i.size) i with
  | mk n q =>
    rcases q with ⟨h₁, f | k⟩
    · rw [he] at hs
      cases hs
    · rw [he] at hs
      cases hs
      exact (succeeds_execute he).effect hf.toNat_next

theorem exists_fetches_of_running {m' : Machine} (hs : m.step h = (m', h', .running)) :
    ∃ i, m.Fetches i := by
  have hrun : m.Ends h .running := step_outcome_iff.1 (congrArg (·.2.2) hs)
  cases hrun with
  | running hf _ _ => exact ⟨_, hf⟩

theorem programOffset_of_running {m' : Machine} (hs : m.step h = (m', h', .running)) :
    m'.programOffset = m.programOffset := by
  rcases exists_fetches_of_running hs with ⟨i, hf⟩
  exact (hf.effect hs).programOffset

/-- A step that leaves the machine running has accessed memory alone. -/
theorem Fetches.access_le {m' : Machine} (hf : m.Fetches i) (hs : m.step h = (m', h', .running))
    (ha : m.access? i = some (a, width)) : a.toNat + width ≤ m.memory.size := by
  rcases ends_running_iff.1 (step_outcome_iff.1 (congrArg (·.2.2) hs)) with ⟨j, hj, hin, _⟩
  rw [hf.unique hj] at ha
  exact hin a width ha

/-- What a step that leaves the machine running has done. The instruction pointer is past the
instruction, or at the target of a jump that is taken, whatever the instruction put into it. Of the
other registers only the one that holds the result has changed, the first three by `stat`, and the
stack pointer by what moves it; of memory only what was stored. The flags describe the result. -/
theorem step_effect {m' : Machine} (hs : m.step h = (m', h', .running)) :
    ∃ i, m.Fetches i ∧ m.Effect h i m' := by
  rcases exists_fetches_of_running hs with ⟨i, hf⟩
  exact ⟨i, hf, hf.effect hs⟩

/-- The result of `sub RI RI` is lost, but the flags describe it. -/
theorem step_effect_sub_instruction : ∃ m, (empty 8).install [15, 255, 255] = .ok m ∧
    (m.step (WordQueue.ofWords [])).2.2 = .running ∧
    (m.step (WordQueue.ofWords [])).1.get .instruction = 8 ∧
    (m.step (WordQueue.ofWords [])).1.flags.zero = true ∧
    ∃ i, m.Fetches i ∧ m.Effect (WordQueue.ofWords []) i (m.step (WordQueue.ofWords [])).1 := by
  have hruns : ((empty 8).install [15, 255, 255]).toOption.any (fun m => decide (
      (m.step (WordQueue.ofWords [])).2.2 = .running ∧
      (m.step (WordQueue.ofWords [])).1.get .instruction = 8 ∧
      (m.step (WordQueue.ofWords [])).1.flags.zero = true)) = true := by decide +kernel
  cases hm : (empty 8).install [15, 255, 255] with
  | error f =>
    rw [hm] at hruns
    cases hruns
  | ok m =>
    rw [hm] at hruns
    rcases of_decide_eq_true hruns with ⟨hrun, hpos, hzero⟩
    have hs : m.step (WordQueue.ofWords []) = ((m.step (WordQueue.ofWords [])).1,
        (m.step (WordQueue.ofWords [])).2.1, .running) := by rw [← hrun]
    exact ⟨m, rfl, hrun, hpos, hzero, step_effect hs⟩

end Machine

end WordMachine
