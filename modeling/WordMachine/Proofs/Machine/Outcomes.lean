import WordMachine.Proofs.Decoding
import WordMachine.Proofs.Machine.Effects

/-!
# How a step ends

A step halts past the end of memory. Else it fails if no instruction lies at the instruction pointer,
if the instruction reads or writes outside memory, divides by zero or asks a host that refuses, and
for no other reason.
-/

namespace WordMachine

def Instruction.divisor? {V : Type} (i : Instruction V) : Option Register :=
  match i.opcode with
  | .sdiv | .udiv | .smod | .umod => i.operands.second?
  | _ => none

namespace Machine

def Fetches (m : Machine) (i : Instruction Word) : Prop :=
  i.encode <+: m.memory.bytes.toList.drop (m.get .instruction).toNat

/-- The bytes of memory that an instruction reads or writes besides its own: the address of the first
and how many there are. -/
def access? (m : Machine) : Instruction Word → Option (Word × Nat)
  | ⟨.store8, .regReg a _⟩ => some (m.get a, 1)
  | ⟨.store16, .regReg a _⟩ => some (m.get a, 2)
  | ⟨.store32, .regReg a _⟩ => some (m.get a, 4)
  | ⟨.load8, .regReg _ b⟩ => some (m.get b, 1)
  | ⟨.load16, .regReg _ b⟩ => some (m.get b, 2)
  | ⟨.load32, .regReg _ b⟩ => some (m.get b, 4)
  | ⟨.push, .reg _⟩ => some (m.get .stack - 4, 4)
  | ⟨.call, .label _⟩ => some (m.get .stack - 4, 4)
  | ⟨.pop, .reg _⟩ => some (m.get .stack, 4)
  | ⟨.ret, .none⟩ => some (m.get .stack, 4)
  | _ => none

/-- The host fails to read or to write the word that an instruction asks it to. -/
inductive Refuses {σ : Type} [Host σ] (m : Machine) (h : σ) : Instruction Word → String → Prop
  | input {a reason} : (Host.read h).1 = .error reason → Refuses m h ⟨.input, .reg a⟩ reason
  | output {a reason} : (Host.write h (m.get a)).1 = .error reason →
      Refuses m h ⟨.output, .reg a⟩ reason

/-- The machine itself cannot execute an instruction at an address. -/
inductive Obstructed (m : Machine) (address : Word) (i : Instruction Word) : Fault → Prop
  | access {a width} : m.access? i = some (a, width) → ¬m.memory.Holds a width →
      Obstructed m address i (.outOfBounds a width)
  | division {r} : i.divisor? = some r → m.get r = 0 → Obstructed m address i (.divisionByZero address)

/-- The ways in which a step can end. -/
inductive Ends {σ : Type} [Host σ] (m : Machine) (h : σ) : Outcome → Prop
  | halted : m.memory.size ≤ (m.get .instruction).toNat → Ends m h .halted
  | invalid {b} : m.memory.bytes[(m.get .instruction).toNat]? = some b → (∀ o : Opcode, o.code ≠ b) →
      Ends m h (.fault (.invalidOpcode b (m.get .instruction)))
  | truncated {o : Opcode} : m.memory.bytes[(m.get .instruction).toNat]? = some o.code →
      m.memory.size < (m.get .instruction).toNat + o.size →
      Ends m h (.fault (.truncatedInstruction (m.get .instruction)))
  | obstructed {i f} : m.Fetches i → m.Obstructed (m.get .instruction) i f → Ends m h (.fault f)
  | refused {i reason} : m.Fetches i → m.Refuses h i reason →
      Ends m h (.fault (.hostFailure (m.get .instruction) reason))
  | running {i} : m.Fetches i → (∀ f, ¬m.Obstructed (m.get .instruction) i f) →
      (∀ reason, ¬m.Refuses h i reason) → Ends m h .running

variable {m : Machine} {i j : Instruction Word} {address next a w : Word} {width : Nat} {f : Fault}
  {r b : Register}

/-! ### Fetching -/

theorem window_eq (a : Word) (width : Nat) :
    m.memory.window a width = (m.memory.bytes.toList.drop a.toNat).take width := by
  apply List.ext_getElem?
  intro k
  rw [Memory.getElem?_window, List.getElem?_take, List.getElem?_drop, Array.getElem?_toList]

theorem fetch_eq (address : Word) : m.fetch address =
    match Instruction.decode (m.memory.bytes.toList.drop address.toNat) with
    | .ok i => .ok i
    | .error (.invalidOpcode b) => .error (.invalidOpcode b address)
    | .error .truncated => .error (.truncatedInstruction address) := by
  have hd : Instruction.decode (m.memory.window address 6) =
      Instruction.decode (m.memory.bytes.toList.drop address.toNat) := by
    rw [window_eq, Instruction.decode_take (Nat.le_refl 6)]
  cases h : Instruction.decode (m.memory.bytes.toList.drop address.toNat) with
  | ok i => rw [fetch, hd, h]
  | error e => cases e <;> rw [fetch, hd, h]

theorem head?_drop_bytes (n : Nat) : (m.memory.bytes.toList.drop n).head? = m.memory.bytes[n]? := by
  rw [List.head?_drop, Array.getElem?_toList]

theorem length_drop_bytes (n : Nat) : (m.memory.bytes.toList.drop n).length = m.memory.size - n := by
  rw [List.length_drop, Array.length_toList]
  rfl

theorem Fetches.fetch_eq (h : m.Fetches i) : m.fetch (m.get .instruction) = .ok i := by
  rw [Machine.fetch_eq, Instruction.decode_eq_ok_iff.2 h]

theorem Fetches.unique (h : m.Fetches i) (h' : m.Fetches j) : i = j := by
  have he := h.fetch_eq
  rw [h'.fetch_eq] at he
  cases he
  rfl

theorem Fetches.end_le (h : m.Fetches i) :
    (m.get .instruction).toNat + i.size ≤ m.memory.size := by
  have hlen := h.length_le
  have hpos : 0 < i.size := i.opcode.size_pos
  rw [Instruction.length_encode, length_drop_bytes] at hlen
  omega

theorem Loaded.fetches {program : List UInt8} {o : Nat} (hl : m.Loaded program) (ha : m.At o)
    (hi : i.encode <+: program.drop o) : m.Fetches i := by
  have hlen := hi.length_le
  have hpos : 0 < i.size := i.opcode.size_pos
  rw [Instruction.length_encode, List.length_drop] at hlen
  rw [Fetches, ha, hl.toNat_absolute (by omega), ← List.drop_drop, hl.drop_eq]
  exact hi

theorem exists_fetches {labels : Assembly.Labels} {program : List UInt8} {o : Nat}
    {x : Instruction Assembly.Value} {rest : List Assembly.Line} (hl : m.Loaded program) (ha : m.At o)
    (hp : Assembly.Placed labels program o (.instruction x :: rest)) :
    ∃ j, x.traverse (Assembly.Value.resolve true labels) = .ok j ∧ m.Fetches j := by
  rcases hp with ⟨⟨j, hj, hcode⟩, _⟩
  exact ⟨j, hj, hl.fetches ha hcode⟩

theorem access?_of_push (ho : i.opcode = .push ∨ i.opcode = .call) :
    m.access? i = some (m.get .stack - 4, 4) := by
  rcases i with ⟨o, x⟩
  rcases ho with rfl | rfl <;> cases x <;> rfl

theorem access?_of_pop (ho : i.opcode = .pop ∨ i.opcode = .ret) :
    m.access? i = some (m.get .stack, 4) := by
  rcases i with ⟨o, x⟩
  rcases ho with rfl | rfl <;> cases x <;> rfl

/-! ### What the machine cannot execute -/

theorem checked_eq_error_iff {c : Prop} [Decidable c] {n : Machine} {g : Fault} :
    (if c then (n, Except.ok w) else (m, .error g)).2 = .error f ↔ ¬c ∧ f = g := by
  by_cases hc : c
  · rw [if_pos hc]
    exact iff_of_false (by rintro ⟨⟩) fun h => h.1 hc
  · rw [if_neg hc]
    constructor
    · intro h
      cases h
      exact ⟨hc, rfl⟩
    · intro h
      rw [h.2]

theorem store_eq_error_iff : (m.store a width w next).2 = .error f ↔
    ¬m.memory.Holds a width ∧ f = .outOfBounds a width := checked_eq_error_iff

theorem load_eq_error_iff : (m.load r a width next).2 = .error f ↔
    ¬m.memory.Holds a width ∧ f = .outOfBounds a width := checked_eq_error_iff

theorem pop_eq_error_iff : m.pop.2 = .error f ↔
    ¬m.memory.Holds (m.get .stack) 4 ∧ f = .outOfBounds (m.get .stack) 4 := checked_eq_error_iff

theorem push_eq_error_iff : (m.push w next).2 = .error f ↔
    ¬m.memory.Holds (m.get .stack - 4) 4 ∧ f = .outOfBounds (m.get .stack - 4) 4 :=
  store_eq_error_iff (m := m.set .stack (m.get .stack - 4))

theorem divide_eq_error_iff {g : Word → Word → Word} :
    (m.divide g r b address next).2 = .error f ↔ m.get b = 0 ∧ f = .divisionByZero address := by
  rw [divide, ← ite_not, checked_eq_error_iff, Decidable.not_not]

theorem not_obstructed (ha : m.access? i = none) (hd : i.divisor? = none) :
    ¬m.Obstructed address i f := by
  intro h
  cases h with
  | access he _ =>
    rw [ha] at he
    cases he
  | division he _ =>
    rw [hd] at he
    cases he

theorem obstructed_of_access (ha : m.access? i = some (a, width)) (hd : i.divisor? = none) :
    m.Obstructed address i f ↔ ¬m.memory.Holds a width ∧ f = .outOfBounds a width := by
  constructor
  · intro h
    cases h with
    | access he hb =>
      rw [ha] at he
      cases he
      exact ⟨hb, rfl⟩
    | division he _ =>
      rw [hd] at he
      cases he
  · intro h
    rw [h.2]
    exact .access ha h.1

theorem obstructed_of_divisor (ha : m.access? i = none) (hd : i.divisor? = some r) :
    m.Obstructed address i f ↔ m.get r = 0 ∧ f = .divisionByZero address := by
  constructor
  · intro h
    cases h with
    | access he _ =>
      rw [ha] at he
      cases he
    | division he hz =>
      rw [hd] at he
      cases he
      exact ⟨hz, rfl⟩
  · intro h
    rw [h.2]
    exact .division hd h.1

theorem compute_eq_error_iff :
    (m.compute address next i).2 = .error f ↔ m.Obstructed address i f := by
  rcases i with ⟨o, x⟩
  cases o <;> cases x
  case store8 | store16 | store32 =>
    rw [obstructed_of_access rfl rfl]
    exact store_eq_error_iff
  case load8 | load16 | load32 =>
    rw [obstructed_of_access rfl rfl]
    exact load_eq_error_iff
  case push | call =>
    rw [obstructed_of_access rfl rfl]
    exact push_eq_error_iff
  case ret =>
    rw [obstructed_of_access rfl rfl]
    exact pop_eq_error_iff
  case pop =>
    rw [obstructed_of_access rfl rfl, ← pop_eq_error_iff, compute]
    rcases m.pop with ⟨n, _ | v⟩
    · rfl
    · exact iff_of_false (by rintro ⟨⟩) (by rintro ⟨⟩)
  case sdiv | udiv | smod | umod =>
    rw [obstructed_of_divisor rfl rfl]
    exact divide_eq_error_iff
  all_goals exact iff_of_false (by rintro ⟨⟩) (not_obstructed rfl rfl)

theorem conclude_error {σ : Type} {p : Machine × σ × Except Fault Word} (hp : p.2.2 = .error f) :
    (conclude i p).2.2 = .fault f := by
  rcases p with ⟨n, k, _⟩
  cases hp
  rfl

theorem conclude_ok {σ : Type} {p : Machine × σ × Except Fault Word} (hp : p.2.2 = .ok next) :
    (conclude i p).2.2 = .running := by
  rcases p with ⟨n, k, _⟩
  cases hp
  rfl

variable {σ : Type} [Host σ] {h : σ} {out : Outcome}

theorem execute_eq_compute (ho : i.opcode.asksHost = false) : m.execute h address next i =
    ((m.compute address next i).1, h, (m.compute address next i).2) := by
  rw [execute]
  · intro a he
    subst he
    cases ho
  · intro a he
    subst he
    cases ho

theorem not_refuses (ho : i.opcode.asksHost = false) (reason : String) : ¬m.Refuses h i reason := by
  intro hr
  cases hr <;> cases ho

theorem eq_of_asksHost (ho : i.opcode.asksHost = true) :
    ∃ a, i = ⟨.input, .reg a⟩ ∨ i = ⟨.output, .reg a⟩ := by
  rcases i with ⟨o, x⟩
  cases o with
  | input =>
    cases x with
    | reg a => exact ⟨a, .inl rfl⟩
  | output =>
    cases x with
    | reg a => exact ⟨a, .inr rfl⟩
  | _ => cases ho

theorem refuses_input_iff {reason : String} :
    m.Refuses h ⟨.input, .reg r⟩ reason ↔ (Host.read h).1 = .error reason := by
  constructor
  · intro hr
    cases hr with
    | input he => exact he
  · exact .input

theorem refuses_output_iff {reason : String} :
    m.Refuses h ⟨.output, .reg r⟩ reason ↔ (Host.write h (m.get r)).1 = .error reason := by
  constructor
  · intro hr
    cases hr with
    | output he => exact he
  · exact .output

theorem execute_input_eq_error_iff : (m.execute h address next ⟨.input, .reg r⟩).2.2 = .error f ↔
    ∃ reason, m.Refuses h ⟨.input, .reg r⟩ reason ∧ f = .hostFailure address reason := by
  simp only [execute, refuses_input_iff]
  rcases Host.read h with ⟨_ | v, h'⟩
  · constructor
    · intro hf
      cases hf
      exact ⟨_, rfl, rfl⟩
    · intro hf
      rcases hf with ⟨_, ⟨⟩, rfl⟩
      rfl
  · exact iff_of_false (by rintro ⟨⟩) (by rintro ⟨_, ⟨⟩, _⟩)

theorem execute_output_eq_error_iff : (m.execute h address next ⟨.output, .reg r⟩).2.2 = .error f ↔
    ∃ reason, m.Refuses h ⟨.output, .reg r⟩ reason ∧ f = .hostFailure address reason := by
  simp only [execute, refuses_output_iff]
  rcases Host.write h (m.get r) with ⟨_ | v, h'⟩
  · constructor
    · intro hf
      cases hf
      exact ⟨_, rfl, rfl⟩
    · intro hf
      rcases hf with ⟨_, ⟨⟩, rfl⟩
      rfl
  · exact iff_of_false (by rintro ⟨⟩) (by rintro ⟨_, ⟨⟩, _⟩)

theorem execute_eq_error_iff : (m.execute h address next i).2.2 = .error f ↔
    m.Obstructed address i f ∨ ∃ reason, m.Refuses h i reason ∧ f = .hostFailure address reason := by
  cases ho : i.opcode.asksHost with
  | false =>
    rw [execute_eq_compute ho, compute_eq_error_iff]
    constructor
    · exact .inl
    · intro hf
      rcases hf with hf | ⟨reason, hr, _⟩
      · exact hf
      · exact absurd hr (not_refuses ho reason)
  | true =>
    rcases eq_of_asksHost ho with ⟨a, rfl | rfl⟩
    · rw [or_iff_right (not_obstructed rfl rfl), execute_input_eq_error_iff]
    · rw [or_iff_right (not_obstructed rfl rfl), execute_output_eq_error_iff]

/-! ### Steps -/

theorem step_of_lt (hlt : (m.get .instruction).toNat < m.memory.size) : m.step h =
    match m.fetch (m.get .instruction) with
    | .error f => (m, h, .fault f)
    | .ok i => conclude i
        (m.execute h (m.get .instruction) (m.get .instruction + UInt32.ofNat i.size) i) := by
  rw [step, if_neg (Nat.not_le.2 hlt)]
  cases m.fetch (m.get .instruction) with
  | error f => rfl
  | ok i =>
    dsimp only
    rcases m.execute h (m.get .instruction) (m.get .instruction + UInt32.ofNat i.size) i with
      ⟨n, k, _ | next⟩ <;> rfl

theorem Fetches.step (hf : m.Fetches i) (h : σ) : m.step h = conclude i
    (m.execute h (m.get .instruction) (m.get .instruction + UInt32.ofNat i.size) i) := by
  have hle := hf.end_le
  have hpos : 0 < i.size := i.opcode.size_pos
  rw [step_of_lt (by omega), hf.fetch_eq]

theorem Ends.step (he : m.Ends h out) : (m.step h).2.2 = out := by
  cases he with
  | halted hle => rw [Machine.step, if_pos hle]
  | @invalid b hb hn =>
    have hd : Instruction.decode (m.memory.bytes.toList.drop (m.get .instruction).toNat) =
        .error (.invalidOpcode b) :=
      Instruction.decode_eq_invalid_iff.2 ⟨(head?_drop_bytes _).trans hb, hn⟩
    rw [step_of_lt (Array.getElem?_eq_some_iff.1 hb).1, fetch_eq, hd]
  | @truncated o hb hlt =>
    have hin : (m.get .instruction).toNat < m.memory.size := (Array.getElem?_eq_some_iff.1 hb).1
    have hd : Instruction.decode (m.memory.bytes.toList.drop (m.get .instruction).toNat) =
        .error .truncated := by
      refine Instruction.decode_eq_short_iff.2 (.inr ⟨o, (head?_drop_bytes _).trans hb, ?_⟩)
      rw [length_drop_bytes]
      omega
    rw [step_of_lt hin, fetch_eq, hd]
  | obstructed hf ho =>
    rw [hf.step]
    exact conclude_error (execute_eq_error_iff.2 (.inl ho))
  | refused hf hr =>
    rw [hf.step]
    exact conclude_error (execute_eq_error_iff.2 (.inr ⟨_, hr, rfl⟩))
  | @running i hf ho hr =>
    rw [hf.step]
    cases hx : (m.execute h (m.get .instruction) (m.get .instruction + UInt32.ofNat i.size) i).2.2 with
    | ok next => exact conclude_ok hx
    | error f =>
      rcases execute_eq_error_iff.1 hx with hf' | ⟨reason, hr', _⟩
      · exact absurd hf' (ho f)
      · exact absurd hr' (hr reason)

theorem exists_ends (m : Machine) (h : σ) : ∃ out, m.Ends h out := by
  by_cases hle : m.memory.size ≤ (m.get .instruction).toNat
  · exact ⟨_, .halted hle⟩
  · cases hd : Instruction.decode (m.memory.bytes.toList.drop (m.get .instruction).toNat) with
    | ok i =>
      have hf : m.Fetches i := Instruction.decode_eq_ok_iff.1 hd
      by_cases ho : ∃ f, m.Obstructed (m.get .instruction) i f
      · rcases ho with ⟨f, ho⟩
        exact ⟨_, .obstructed hf ho⟩
      · by_cases hr : ∃ reason, m.Refuses h i reason
        · rcases hr with ⟨reason, hr⟩
          exact ⟨_, .refused hf hr⟩
        · exact ⟨_, .running hf (not_exists.1 ho) (not_exists.1 hr)⟩
    | error e =>
      cases e with
      | invalidOpcode b =>
        rcases Instruction.decode_eq_invalid_iff.1 hd with ⟨hb, hn⟩
        rw [head?_drop_bytes] at hb
        exact ⟨_, .invalid hb hn⟩
      | truncated =>
        rcases Instruction.decode_eq_short_iff.1 hd with hnil | ⟨o, hb, hlt⟩
        · have hlen := congrArg List.length hnil
          rw [length_drop_bytes, List.length_nil] at hlen
          omega
        · rw [head?_drop_bytes] at hb
          rw [length_drop_bytes] at hlt
          exact ⟨_, .truncated hb (by omega)⟩

theorem step_outcome_iff : (m.step h).2.2 = out ↔ m.Ends h out := by
  constructor
  · intro ho
    rcases exists_ends m h with ⟨out', he⟩
    rw [← ho, he.step]
    exact he
  · exact Ends.step

/-! ### Each way -/

theorem ends_halted_iff : m.Ends h .halted ↔ m.memory.size ≤ (m.get .instruction).toNat := by
  constructor
  · intro he
    cases he with
    | halted hle => exact hle
  · exact .halted

theorem step_eq_halted_iff :
    m.step h = (m, h, .halted) ↔ m.memory.size ≤ (m.get .instruction).toNat := by
  constructor
  · intro hs
    exact ends_halted_iff.1 (step_outcome_iff.1 (congrArg (·.2.2) hs))
  · intro hle
    rw [step, if_pos hle]

theorem ends_invalid_iff {c : UInt8} : m.Ends h (.fault (.invalidOpcode c a)) ↔
    a = m.get .instruction ∧ m.memory.bytes[a.toNat]? = some c ∧ ∀ o : Opcode, o.code ≠ c := by
  constructor
  · intro he
    cases he with
    | invalid hb hn => exact ⟨rfl, hb, hn⟩
    | obstructed _ ho => cases ho
  · intro he
    rcases he with ⟨rfl, hb, hn⟩
    exact .invalid hb hn

theorem ends_truncated_iff : m.Ends h (.fault (.truncatedInstruction a)) ↔
    a = m.get .instruction ∧
      ∃ o : Opcode, m.memory.bytes[a.toNat]? = some o.code ∧ m.memory.size < a.toNat + o.size := by
  constructor
  · intro he
    cases he with
    | truncated hb hlt => exact ⟨rfl, _, hb, hlt⟩
    | obstructed _ ho => cases ho
  · intro he
    rcases he with ⟨rfl, o, hb, hlt⟩
    exact .truncated hb hlt

theorem ends_outOfBounds_iff : m.Ends h (.fault (.outOfBounds a width)) ↔
    ∃ i, m.Fetches i ∧ m.access? i = some (a, width) ∧ m.memory.size < a.toNat + width := by
  constructor
  · intro he
    cases he with
    | obstructed hf ho =>
      cases ho with
      | access ha hb => exact ⟨_, hf, ha, Nat.not_le.1 hb⟩
  · intro he
    rcases he with ⟨i, hf, ha, hlt⟩
    exact .obstructed hf (.access ha (Nat.not_le.2 hlt))

theorem ends_divisionByZero_iff : m.Ends h (.fault (.divisionByZero a)) ↔
    a = m.get .instruction ∧ ∃ i r, m.Fetches i ∧ i.divisor? = some r ∧ m.get r = 0 := by
  constructor
  · intro he
    cases he with
    | obstructed hf ho =>
      cases ho with
      | division hd hz => exact ⟨rfl, _, _, hf, hd, hz⟩
  · intro he
    rcases he with ⟨rfl, i, r, hf, hd, hz⟩
    exact .obstructed hf (.division hd hz)

theorem ends_hostFailure_iff {reason : String} : m.Ends h (.fault (.hostFailure a reason)) ↔
    a = m.get .instruction ∧ ∃ i, m.Fetches i ∧ m.Refuses h i reason := by
  constructor
  · intro he
    cases he with
    | obstructed _ ho => cases ho
    | refused hf hr => exact ⟨rfl, _, hf, hr⟩
  · intro he
    rcases he with ⟨rfl, i, hf, hr⟩
    exact .refused hf hr

theorem ends_running_iff : m.Ends h .running ↔ ∃ i, m.Fetches i ∧
    (∀ a width, m.access? i = some (a, width) → a.toNat + width ≤ m.memory.size) ∧
    (∀ r, i.divisor? = some r → m.get r ≠ 0) ∧ ∀ reason, ¬m.Refuses h i reason := by
  constructor
  · intro he
    cases he with
    | running hf ho hr =>
      refine ⟨_, hf, fun a width ha => ?_, fun r hd hz => ho _ (.division hd hz), hr⟩
      by_cases hb : m.memory.Holds a width
      · exact hb
      · exact absurd (.access ha hb) (ho _)
  · intro he
    rcases he with ⟨i, hf, ha, hd, hr⟩
    refine .running hf (fun f ho => ?_) hr
    cases ho with
    | access he hb => exact hb (ha _ _ he)
    | division he hz => exact hd _ he hz

theorem not_ends_programTooLarge (program memory : Nat) :
    ¬m.Ends h (.fault (.programTooLarge program memory)) := by
  intro he
  cases he with
  | obstructed _ ho => cases ho

/-- Nothing goes wrong at a step without being reported, whatever memory and registers hold. A step
halts past the end of memory and changes nothing there. It fails if the byte at the instruction pointer
names no opcode, if memory ends before the operands do, if not all the bytes that the instruction
accesses lie in memory, if it divides by zero or if the host refuses, and the machine is running
afterwards if none of this is so. -/
theorem step_outcome (m : Machine) (h : σ) :
    ((m.step h).2.2 = .halted ↔ m.memory.size ≤ (m.get .instruction).toNat) ∧
    (m.step h = (m, h, .halted) ↔ m.memory.size ≤ (m.get .instruction).toNat) ∧
    (∀ b a, (m.step h).2.2 = .fault (.invalidOpcode b a) ↔ a = m.get .instruction ∧
      m.memory.bytes[a.toNat]? = some b ∧ ∀ o : Opcode, o.code ≠ b) ∧
    (∀ a, (m.step h).2.2 = .fault (.truncatedInstruction a) ↔ a = m.get .instruction ∧
      ∃ o : Opcode, m.memory.bytes[a.toNat]? = some o.code ∧ m.memory.size < a.toNat + o.size) ∧
    (∀ a width, (m.step h).2.2 = .fault (.outOfBounds a width) ↔
      ∃ i, m.Fetches i ∧ m.access? i = some (a, width) ∧ m.memory.size < a.toNat + width) ∧
    (∀ a, (m.step h).2.2 = .fault (.divisionByZero a) ↔ a = m.get .instruction ∧
      ∃ i r, m.Fetches i ∧ i.divisor? = some r ∧ m.get r = 0) ∧
    (∀ a reason, (m.step h).2.2 = .fault (.hostFailure a reason) ↔ a = m.get .instruction ∧
      ∃ i, m.Fetches i ∧ m.Refuses h i reason) ∧
    ((m.step h).2.2 = .running ↔ ∃ i, m.Fetches i ∧
      (∀ a width, m.access? i = some (a, width) → a.toNat + width ≤ m.memory.size) ∧
      (∀ r, i.divisor? = some r → m.get r ≠ 0) ∧ ∀ reason, ¬m.Refuses h i reason) ∧
    ∀ program memory, (m.step h).2.2 ≠ .fault (.programTooLarge program memory) := by
  simp only [ne_eq, step_outcome_iff]
  exact ⟨ends_halted_iff, step_eq_halted_iff, fun _ _ => ends_invalid_iff, fun _ => ends_truncated_iff,
    fun _ _ => ends_outOfBounds_iff, fun _ => ends_divisionByZero_iff, fun _ _ => ends_hostFailure_iff,
    ends_running_iff, not_ends_programTooLarge⟩

end Machine

end WordMachine
