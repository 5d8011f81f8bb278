import WordMachine.Proofs.Machine.Outcomes

/-!
# Steps that fail

A step that fails leaves the machine as it was, unless it has moved the stack pointer down for a word
that then finds no memory. Only a host that refuses has been asked for anything: every other failure is
the same whatever the host is.
-/

namespace WordMachine.Machine

def PushFails (m : Machine) (f : Fault) : Prop :=
  ∃ i, m.Fetches i ∧ (i.opcode = .push ∨ i.opcode = .call) ∧ ∃ a width, f = .outOfBounds a width

variable {m n m' : Machine} {i : Instruction Word} {address next a w : Word} {width : Nat} {f : Fault}
  {r b : Register}

/-! ### The parts of instructions that fail -/

theorem eq_of_checked_error {c : Prop} [Decidable c] {k : Machine} {g : Fault}
    (he : (if c then (k, Except.ok next) else (m, .error g)) = (n, .error f)) : n = m := by
  by_cases hc : c
  · rw [if_pos hc] at he
    cases he
  · rw [if_neg hc] at he
    cases he
    rfl

theorem eq_of_load_error (he : m.load r a width next = (n, .error f)) : n = m := eq_of_checked_error he

theorem eq_of_store_error (he : m.store a width w next = (n, .error f)) : n = m :=
  eq_of_checked_error he

theorem eq_of_push_error (he : m.push w next = (n, .error f)) :
    n = m.set .stack (m.get .stack - 4) := eq_of_checked_error he

theorem eq_of_pop_error (he : m.pop = (n, .error f)) : n = m := eq_of_checked_error he

theorem eq_of_divide_error {g : Word → Word → Word}
    (he : m.divide g r b address next = (n, .error f)) : n = m := by
  rw [divide, ← ite_not] at he
  exact eq_of_checked_error he

theorem eq_of_popInto_error (he : m.compute address next ⟨.pop, .reg r⟩ = (n, .error f)) : n = m := by
  by_cases hb : m.memory.Holds (m.get .stack) 4
  · rw [compute, pop_of_holds hb] at he
    cases he
  · rw [compute, pop_of_not_holds hb] at he
    cases he
    rfl

/-! ### Instructions that fail -/

theorem eq_of_compute_error (hp : i.opcode ≠ .push) (hc : i.opcode ≠ .call)
    (he : m.compute address next i = (n, .error f)) : n = m := by
  rcases i with ⟨o, x⟩
  cases o <;> cases x
  case push => exact absurd rfl hp
  case call => exact absurd rfl hc
  case store8 | store16 | store32 => exact eq_of_store_error he
  case load8 | load16 | load32 => exact eq_of_load_error he
  case pop => exact eq_of_popInto_error he
  case ret => exact eq_of_pop_error he
  case sdiv | udiv | smod | umod =>
    rw [compute] at he
    exact eq_of_divide_error he
  all_goals cases he

theorem eq_of_compute_push_error (ho : i.opcode = .push ∨ i.opcode = .call)
    (he : m.compute address next i = (n, .error f)) : n = m.set .stack (m.get .stack - 4) := by
  rcases i with ⟨o, x⟩
  cases ho with
  | inl ho =>
    cases ho
    cases x
    exact eq_of_push_error he
  | inr ho =>
    cases ho
    cases x
    exact eq_of_push_error he

theorem Obstructed.of_push (ho : i.opcode = .push ∨ i.opcode = .call)
    (hb : m.Obstructed address i f) : ∃ a width, f = .outOfBounds a width := by
  cases hb with
  | access => exact ⟨_, _, rfl⟩
  | division hd =>
    rcases i with ⟨o, x⟩
    cases ho with
    | inl ho =>
      cases ho
      cases hd
    | inr ho =>
      cases ho
      cases hd

theorem conclude_eq_fault {σ : Type} {h' : σ} {p : Machine × σ × Except Fault Word}
    (hc : conclude i p = (n, h', .fault f)) : p = (n, h', .error f) := by
  rcases p with ⟨k, g, _ | next⟩
  · cases hc
    rfl
  · cases hc

variable {σ : Type} [Host σ] {h h' : σ}

/-- An instruction that the host has no part in fails as the machine alone does. -/
theorem compute_of_execute (ho : i.opcode.asksHost = false)
    (he : m.execute h address next i = (n, h', .error f)) :
    m.compute address next i = (n, .error f) ∧ h' = h := by
  rw [execute_eq_compute ho] at he
  injection he with hn he
  injection he with hh hf
  exact ⟨Prod.ext hn hf, hh.symm⟩

/-- If it has a part in it the machine is as it was, and the fault is the host's. -/
theorem of_execute_asking (ho : i.opcode.asksHost = true)
    (he : m.execute h address next i = (n, h', .error f)) :
    n = m ∧ ∃ reason, f = .hostFailure address reason := by
  rcases eq_of_asksHost ho with ⟨a, hi | hi⟩
  · rw [hi, execute] at he
    cases hr : Host.read h with
    | mk answer k =>
      rw [hr] at he
      cases answer with
      | ok w => cases he
      | error reason =>
        cases he
        exact ⟨rfl, reason, rfl⟩
  · rw [hi, execute] at he
    cases hw : Host.write h (m.get a) with
    | mk answer k =>
      rw [hw] at he
      cases answer with
      | ok w => cases he
      | error reason =>
        cases he
        exact ⟨rfl, reason, rfl⟩

/-! ### Steps that fail -/

theorem fetch_of_fault (hs : m.step h = (m', h', .fault f)) :
    m.fetch (m.get .instruction) = .error f ∧ m' = m ∧ h' = h ∨ ∃ i, m.Fetches i ∧
      m.execute h (m.get .instruction) (m.get .instruction + UInt32.ofNat i.size) i =
        (m', h', .error f) := by
  by_cases hle : m.memory.size ≤ (m.get .instruction).toNat
  · rw [step, if_pos hle] at hs
    cases hs
  · have hstep := step_of_lt (h := h) (Nat.not_le.1 hle)
    cases hi : m.fetch (m.get .instruction) with
    | error g =>
      rw [hs, hi] at hstep
      cases hstep
      exact .inl ⟨rfl, rfl, rfl⟩
    | ok i =>
      rw [hs, hi] at hstep
      have hf : m.Fetches i := by
        rw [fetch_eq] at hi
        cases hd : Instruction.decode (m.memory.bytes.toList.drop (m.get .instruction).toNat) with
        | ok j =>
          rw [hd] at hi
          cases hi
          exact Instruction.decode_eq_ok_iff.1 hd
        | error e =>
          rw [hd] at hi
          cases e <;> cases hi
      exact .inr ⟨i, hf, conclude_eq_fault hstep.symm⟩

/-- All that a step that fails can have changed of the machine. -/
theorem machine_of_fault (hs : m.step h = (m', h', .fault f)) :
    m.PushFails f ∧ m' = m.set .stack (m.get .stack - 4) ∨ ¬m.PushFails f ∧ m' = m := by
  cases fetch_of_fault hs with
  | inl hbad =>
    refine .inr ⟨fun hp => ?_, hbad.2.1⟩
    rcases hp with ⟨i, hi, _⟩
    rw [hi.fetch_eq] at hbad
    cases hbad.1
  | inr hbad =>
    rcases hbad with ⟨i, hi, he⟩
    by_cases ho : i.opcode = .push ∨ i.opcode = .call
    · have hask : i.opcode.asksHost = false := by
        cases ho with
        | inl ho => rw [ho]; rfl
        | inr ho => rw [ho]; rfl
      have hc := (compute_of_execute hask he).1
      have hout := (compute_eq_error_iff.1 (congrArg Prod.snd hc)).of_push ho
      exact .inl ⟨⟨i, hi, ho, hout⟩, eq_of_compute_push_error ho hc⟩
    · refine .inr ⟨fun hp => ?_, ?_⟩
      · rcases hp with ⟨j, hj, hjo, _⟩
        rw [hj.unique hi] at hjo
        exact ho hjo
      · cases hask : i.opcode.asksHost with
        | true => exact (of_execute_asking hask he).1
        | false =>
          exact eq_of_compute_error (fun hp => ho (.inl hp)) (fun hc => ho (.inr hc))
            (compute_of_execute hask he).1

/-- A failure that is not the host's is the same with any host, which is left as it was. -/
theorem host_of_fault (hs : m.step h = (m', h', .fault f)) (hf : ∀ a reason, f ≠ .hostFailure a reason) :
    h' = h ∧ ∀ (τ : Type) [Host τ] (k : τ), m.step k = (m', k, .fault f) := by
  have hlt : (m.get .instruction).toNat < m.memory.size := by
    by_cases hle : m.memory.size ≤ (m.get .instruction).toNat
    · rw [step, if_pos hle] at hs
      cases hs
    · exact Nat.not_le.1 hle
  cases fetch_of_fault hs with
  | inl hbad =>
    rcases hbad with ⟨hi, hm, hh⟩
    refine ⟨hh, fun τ _ k => ?_⟩
    rw [step_of_lt hlt, hi, hm]
  | inr hbad =>
    rcases hbad with ⟨i, hi, he⟩
    cases hask : i.opcode.asksHost with
    | true =>
      rcases of_execute_asking hask he with ⟨_, reason, hr⟩
      exact absurd hr (hf _ reason)
    | false =>
      have hc := compute_of_execute hask he
      refine ⟨hc.2, fun τ _ k => ?_⟩
      rw [hi.step, execute_eq_compute hask, hc.1]
      rfl

/-- A step that fails changes nothing but the stack pointer, and that only where a word that is pushed
finds no memory. Unless the fault is the host's the host is as it was, and any other host would have made
no difference. -/
theorem fault_atomic (hs : m.step h = (m', h', .fault f)) :
    (m'.memory = m.memory ∧ m'.flags = m.flags ∧ m'.programOffset = m.programOffset ∧
      ∀ r, r ≠ .stack → m'.get r = m.get r) ∧
    (m.PushFails f → m'.get .stack = m.get .stack - 4) ∧
    (¬m.PushFails f → m'.get .stack = m.get .stack) ∧
    ((∀ a reason, f ≠ .hostFailure a reason) →
      h' = h ∧ ∀ (τ : Type) [Host τ] (k : τ), m.step k = (m', k, .fault f)) := by
  cases machine_of_fault hs with
  | inl hp =>
    have hm' := hp.2
    refine ⟨⟨?_, ?_, ?_, fun r hr => ?_⟩, fun _ => ?_, fun hn => absurd hp.1 hn, host_of_fault hs⟩
    · rw [hm', memory_set]
    · rw [hm']
      rfl
    · rw [hm', programOffset_set]
    · rw [hm', get_set, if_neg hr]
    · rw [hm', get_set, if_pos rfl]
  | inr hp =>
    have hm' := hp.2
    subst hm'
    exact ⟨⟨rfl, rfl, rfl, fun _ _ => rfl⟩, fun hn => absurd hn hp.1, fun _ => rfl, host_of_fault hs⟩

/-- A push onto an empty stack at the start of memory moves the stack pointer past zero. -/
theorem fault_atomic_no_room : ∃ m m', (empty 2).install [11, 0] = .ok m ∧
    m.step (WordQueue.ofWords []) = (m', .ofWords [], .fault (.outOfBounds 4294967292 4)) ∧
    m'.get .stack = m.get .stack - 4 ∧ m.get .stack = 0 ∧ m'.memory = m.memory ∧
    m'.get .instruction = m.get .instruction := by
  have hruns : ((empty 2).install [11, 0]).toOption.any (fun m => decide (
      (m.step (WordQueue.ofWords [])).2.2 = .fault (.outOfBounds 4294967292 4) ∧ m.get .stack = 0 ∧
      [11, 0] <+: m.memory.bytes.toList.drop (m.get .instruction).toNat)) = true := by decide +kernel
  cases hm : (empty 2).install [11, 0] with
  | error f =>
    rw [hm] at hruns
    cases hruns
  | ok m =>
    rw [hm] at hruns
    rcases of_decide_eq_true hruns with ⟨hout, hstack, hcode⟩
    have hs : m.step (WordQueue.ofWords []) = ((m.step (WordQueue.ofWords [])).1,
        (m.step (WordQueue.ofWords [])).2.1, .fault (.outOfBounds 4294967292 4)) := by rw [← hout]
    have hfails : m.PushFails (.outOfBounds 4294967292 4) :=
      ⟨⟨.push, .reg ⟨0⟩⟩, hcode, .inl rfl, _, _, rfl⟩
    rcases fault_atomic hs with ⟨⟨hmem, _, _, hrest⟩, hlow, _, hhost⟩
    have hh := (hhost fun _ _ hf => by cases hf).1
    rw [hh] at hs
    exact ⟨m, _, rfl, hs, hlow hfails, hstack, hmem, hrest .instruction (by decide)⟩

end WordMachine.Machine
