import WordMachine.Proofs.Compiler.Steps

/-!
# What an instruction changes

Which registers an instruction can change, and whether it can change memory. All the rest is as it was
afterwards, whether the instruction succeeds or fails.
-/

namespace WordMachine

namespace Operands

variable {V W ε : Type} {s : Shape}

theorem first?_of_traverse {f : V → Except ε W} {x : Operands V s} {y : Operands W s}
    (h : x.traverse f = .ok y) : y.first? = x.first? := by
  cases x with
  | none | reg | regReg =>
    cases h
    rfl
  | regVal a v | label v =>
    cases hv : f v with
    | error e => simp [traverse, hv, Except.map] at h
    | ok w =>
      simp only [traverse, hv, Except.map, Except.ok.injEq] at h
      subst h
      rfl

end Operands

namespace Instruction

variable {V W ε : Type}

/-- The registers that an instruction can change. A jump changes the instruction pointer; that any
other instruction moves it past itself is not counted. -/
def written (i : Instruction V) : List Register :=
  match i.opcode with
  | .nop | .output | .store8 | .store16 | .store32 => []
  | .stat => [⟨0⟩, ⟨1⟩, ⟨2⟩]
  | .push => [.stack]
  | .pop => .stack :: i.operands.first?.toList
  | .call | .ret => [.stack, .instruction]
  | .jmp | .jiz | .juz | .jis | .jus | .jio | .juo | .jmpr => [.instruction]
  | _ => i.operands.first?.toList

def stores (i : Instruction V) : Bool :=
  match i.opcode with
  | .store8 | .store16 | .store32 | .push | .call => true
  | _ => false

theorem opcode_of_traverse {f : V → Except ε W} {i : Instruction V} {j : Instruction W}
    (h : i.traverse f = .ok j) : j.opcode = i.opcode := by
  cases hx : i.operands.traverse f with
  | error e => simp [traverse, hx, Except.map] at h
  | ok x =>
    simp only [traverse, hx, Except.map, Except.ok.injEq] at h
    subst h
    rfl

theorem written_of_traverse {f : V → Except ε W} {i : Instruction V} {j : Instruction W}
    (h : i.traverse f = .ok j) : j.written = i.written ∧ j.stores = i.stores := by
  rcases i with ⟨o, x⟩
  cases hx : x.traverse f with
  | error e => simp [traverse, hx, Except.map] at h
  | ok y =>
    simp only [traverse, hx, Except.map, Except.ok.injEq] at h
    subst h
    have hf := Operands.first?_of_traverse hx
    simp only [written, stores, hf, and_true]

end Instruction

def Fault.Ordinary : Fault → Prop
  | .outOfBounds _ _ | .divisionByZero _ | .hostFailure _ _ => True
  | _ => False

namespace Machine

/-- The result of an instruction changes none but these registers, memory only if it stores, and if it
does not change the instruction pointer it goes on at the next instruction. If it fails, memory and the
instruction pointer are as they were. -/
structure Changes (m : Machine) (next : Word) (rs : List Register) (stores : Bool)
    (p : Machine × Except Fault Word) : Prop where
  get : ∀ q, q ∉ rs → p.1.get q = m.get q
  memory : stores = false → p.1.memory = m.memory
  programOffset : p.1.programOffset = m.programOffset
  next : .instruction ∉ rs → ∀ n, p.2 = .ok n → n = next
  fault : ∀ f, p.2 = .error f → f.Ordinary ∧ p.1.memory = m.memory ∧
    p.1.get .instruction = m.get .instruction

variable {m : Machine} {next : Word} {rs : List Register}

/-! ### The parts of instructions -/

theorem changes_set (r : Register) (w : Word) : m.Changes next [r] false (m.set r w, .ok next) where
  get q hq := by rw [get_set, if_neg (by simpa using hq)]
  memory _ := rfl
  programOffset := rfl
  next _ n hn := by
    cases hn
    rfl
  fault _ hf := by cases hf

theorem changes_error {f : Fault} (hf : f.Ordinary) (rs : List Register) (s : Bool) :
    m.Changes next rs s (m, .error f) where
  get _ _ := rfl
  memory _ := rfl
  programOffset := rfl
  next _ _ hn := by cases hn
  fault _ hg := by
    cases hg
    exact ⟨hf, rfl, rfl⟩

theorem changes_nothing : m.Changes next [] false (m, .ok next) where
  get _ _ := rfl
  memory _ := rfl
  programOffset := rfl
  next _ n hn := by
    cases hn
    rfl
  fault _ hf := by cases hf

theorem changes_load (r : Register) (a : Word) (width : Nat) :
    m.Changes next [r] false (m.load r a width next) := by
  by_cases hb : m.memory.Holds a width
  · rw [load, if_pos hb]
    exact changes_set r _
  · rw [load, if_neg hb]
    exact changes_error (by exact trivial) _ _

theorem changes_store (a w : Word) (width : Nat) : m.Changes next [] true (m.store a width w next) := by
  by_cases hb : m.memory.Holds a width
  · rw [store, if_pos hb]
    refine ⟨fun _ _ => rfl, by simp, rfl, ?_, ?_⟩
    · intro _ n hn
      cases hn
      rfl
    · intro _ hf
      cases hf
  · rw [store, if_neg hb]
    exact changes_error (by exact trivial) _ _

theorem changes_push (w target : Word) (hrs : .stack ∈ rs)
    (ht : .instruction ∉ rs → target = next) : m.Changes next rs true (m.push w target) := by
  have hs : (m.set .stack (m.get .stack - 4)).Changes target [] true (m.push w target) :=
    changes_store _ _ _
  refine ⟨?_, by simp, hs.programOffset, ?_, fun f hf => ?_⟩
  · intro q hq
    have hne : q ≠ .stack := fun he => hq (he ▸ hrs)
    rw [hs.get q (by simp), get_set, if_neg hne]
  · intro hi n hn
    rw [← ht hi]
    exact hs.next (by simp) n hn
  · obtain ⟨ho, hm, hp⟩ := hs.fault f hf
    rw [get_set, if_neg (by decide)] at hp
    exact ⟨ho, hm, hp⟩

theorem changes_pop (hrs : .stack ∈ rs) (hi : .instruction ∈ rs) : m.Changes next rs false m.pop := by
  by_cases hb : m.memory.Holds (m.get .stack) 4
  · rw [pop, if_pos hb]
    refine ⟨?_, fun _ => rfl, rfl, fun hn => absurd hi hn, ?_⟩
    · intro q hq
      have hne : q ≠ .stack := fun he => hq (he ▸ hrs)
      rw [get_set, if_neg hne]
    · intro _ hf
      cases hf
  · rw [pop, if_neg hb]
    exact changes_error (by exact trivial) _ _

theorem changes_divide (f : Word → Word → Word) (a b : Register) (address : Word) :
    m.Changes next [a] false (m.divide f a b address next) := by
  by_cases hb : m.get b = 0
  · rw [divide, if_pos hb]
    exact changes_error (by exact trivial) _ _
  · rw [divide, if_neg hb]
    exact changes_set a _

theorem changes_jumpIf (taken : Bool) (target : Word) :
    m.Changes next [.instruction] false (m.jumpIf taken target next) where
  get _ _ := rfl
  memory _ := rfl
  programOffset := rfl
  next hi := absurd (List.mem_singleton.2 rfl) hi
  fault _ hf := by cases hf

theorem Changes.flags {r : Register} {w : Word} (f : Flags)
    (h : m.Changes next [r] false (m.set r w, .ok next)) :
    m.Changes next [r] false ({ m.set r w with flags := f }, .ok next) :=
  ⟨h.get, h.memory, h.programOffset, h.next, fun _ hf => by cases hf⟩

theorem Changes.mono {rs' : List Register} {s : Bool} {p : Machine × Except Fault Word}
    (h : m.Changes next rs s p) (hr : ∀ q ∈ rs, q ∈ rs') : m.Changes next rs' s p :=
  ⟨fun q hq => h.get q fun hm => hq (hr q hm), h.memory, h.programOffset,
    fun hi => h.next fun hm => hi (hr _ hm), h.fault⟩

/-! ### Instructions -/

theorem changes_compute (m : Machine) (address next : Word) (i : Instruction Word) :
    m.Changes next i.written i.stores (m.compute address next i) := by
  rcases i with ⟨o, x⟩
  cases o <;> cases x
  case nop | output => exact changes_nothing
  case input => exact changes_nothing.mono (by simp)
  case stat =>
    refine ⟨?_, fun _ => rfl, rfl, ?_, ?_⟩
    · intro q hq
      obtain ⟨h0, h1, h2⟩ : q ≠ ⟨0⟩ ∧ q ≠ ⟨1⟩ ∧ q ≠ ⟨2⟩ := by simpa [Instruction.written] using hq
      simp only [compute, get_set, h0, h1, h2, if_false]
    · intro _ n hn
      cases hn
      rfl
    · intro _ hf
      cases hf
  case store8 | store16 | store32 => exact changes_store _ _ _
  case load8 | load16 | load32 => exact changes_load _ _ _
  case push => exact changes_push _ _ (by simp [Instruction.written]) fun _ => rfl
  case call =>
    exact changes_push _ _ (by simp [Instruction.written]) fun h => by simp [Instruction.written] at h
  case ret => exact changes_pop (by simp [Instruction.written]) (by simp [Instruction.written])
  case pop a =>
    by_cases hb : m.memory.Holds (m.get .stack) 4
    · simp only [compute, pop, if_pos hb]
      refine ⟨?_, fun _ => rfl, rfl, ?_, ?_⟩
      · intro q hq
        obtain ⟨hs, ha⟩ : q ≠ .stack ∧ q ≠ a := by
          simpa [Instruction.written, Operands.first?] using hq
        rw [get_set, if_neg ha, get_set, if_neg hs]
      · intro _ n hn
        cases hn
        rfl
      · intro _ hf
        cases hf
    · simp only [compute, pop, if_neg hb]
      exact changes_error (by exact trivial) _ _
  case sdiv => exact changes_divide (fun x y => (x.toInt32 / y.toInt32).toUInt32) _ _ _
  case smod => exact changes_divide (fun x y => (x.toInt32 % y.toInt32).toUInt32) _ _ _
  case udiv | umod => exact changes_divide _ _ _ _
  case jmp | jiz | juz | jis | jus | jio | juo | jmpr => exact changes_jumpIf _ _
  case add | sub => exact (changes_set _ _).flags _
  case set | mov | smul | umul | neg | and | or | xor | shift | not => exact changes_set _ _

theorem changes_execute {σ : Type} [Host σ] {m m' : Machine} {h h' : σ} {address next : Word}
    {i : Instruction Word} {r : Except Fault Word} (he : m.execute h address next i = (m', h', r)) :
    m.Changes next i.written i.stores (m', r) := by
  have hc := changes_compute m address next i
  rcases i with ⟨o, x⟩
  by_cases hin : o = .input
  · subst hin
    cases x
    rename_i a
    simp only [execute] at he
    cases hr : Host.read h with
    | mk result h₁ =>
      rw [hr] at he
      cases result with
      | ok w =>
        cases he
        exact changes_set a w
      | error reason =>
        cases he
        exact changes_error (by exact trivial) _ _
  · by_cases hout : o = .output
    · subst hout
      cases x
      rename_i a
      simp only [execute] at he
      cases hw : Host.write h (m.get a) with
      | mk result h₁ =>
        rw [hw] at he
        cases result with
        | ok _ =>
          cases he
          exact changes_nothing
        | error reason =>
          cases he
          exact changes_error (by exact trivial) _ _
    · have hp : m.execute h address next ⟨o, x⟩ =
          ((m.compute address next ⟨o, x⟩).1, h, (m.compute address next ⟨o, x⟩).2) := by
        cases o <;> first | rfl | exact absurd rfl hin | exact absurd rfl hout
      rw [hp] at he
      cases he
      exact hc

end Machine

end WordMachine
