import WordMachine.Proofs.Machine.Outcomes

/-!
# What an instruction reads

Which registers an instruction looks at. Machines that differ in other registers alone go the same way,
and have the same words in every register that the instruction has changed.
-/

namespace WordMachine

/-- The registers that an instruction reads, the stack pointer among them: the words of others do not
matter to it (`sameResult_execute`). -/
def Instruction.reads {V : Type} (i : Instruction V) : List Register :=
  match i.opcode with
  | .nop | .stat | .set | .input => []
  | .jmp | .jiz | .juz | .jis | .jus | .jio | .juo => []
  | .output | .neg | .not | .jmpr => i.operands.first?.toList
  | .push => .stack :: i.operands.first?.toList
  | .pop | .call | .ret => [.stack]
  | .load8 | .load16 | .load32 | .mov => i.operands.second?.toList
  | _ => i.operands.first?.toList ++ i.operands.second?.toList

namespace Machine

/-- Two machines are the same but for registers other than these. -/
structure Alike (rs : List Register) (m n : Machine) : Prop where
  memory : n.memory = m.memory
  flags : n.flags = m.flags
  programOffset : n.programOffset = m.programOffset
  get : ∀ r ∈ rs, n.get r = m.get r

/-- Two results go on at the same place or fail with the same fault, and the machines are the same but for
registers. If they go on, these registers are the same as well. -/
structure SameResult (rs : List Register) (p q : Machine × Except Fault Word) : Prop where
  outcome : q.2 = p.2
  machine : p.1.Alike [] q.1
  get : ∀ k, p.2 = .ok k → ∀ r ∈ rs, q.1.get r = p.1.get r

variable {m n : Machine} {rs : List Register} {r : Register} {w a next k : Word} {f : Fault}

theorem Alike.mono {qs : List Register} (h : m.Alike rs n) (hq : ∀ q ∈ qs, q ∈ rs) : m.Alike qs n :=
  ⟨h.memory, h.flags, h.programOffset, fun q hm => h.get q (hq q hm)⟩

theorem Alike.forget (h : m.Alike rs n) : m.Alike [] n := h.mono (by simp)

theorem Alike.set (h : m.Alike rs n) (r : Register) (w : Word) :
    (m.set r w).Alike (r :: rs) (n.set r w) where
  memory := h.memory
  flags := h.flags
  programOffset := h.programOffset
  get q hq := by
    rw [get_set, get_set]
    by_cases hr : q = r
    · rw [if_pos hr, if_pos hr]
    · rw [if_neg hr, if_neg hr, h.get q ((List.mem_cons.1 hq).resolve_left hr)]

theorem sameResult_ok (h : m.Alike rs n) (k : Word) : SameResult rs (m, .ok k) (n, .ok k) :=
  ⟨rfl, h.forget, fun _ _ => h.get⟩

theorem sameResult_error (h : m.Alike rs n) (f : Fault) (qs : List Register) :
    SameResult qs (m, .error f) (n, .error f) :=
  ⟨rfl, h.forget, fun _ hk => by cases hk⟩

theorem sameResult_set (h : m.Alike rs n) (r : Register) (w k : Word) :
    SameResult [r] (m.set r w, .ok k) (n.set r w, .ok k) :=
  sameResult_ok ((h.set r w).mono (by simp)) k

theorem sameResult_load (h : m.Alike rs n) (r : Register) (a : Word) (width : Nat) (next : Word) :
    SameResult [r] (m.load r a width next) (n.load r a width next) := by
  rw [load, load, h.memory]
  split
  · exact sameResult_set h _ _ _
  · exact sameResult_error h _ _

theorem sameResult_store (h : m.Alike rs n) (a : Word) (width : Nat) (w next : Word) :
    SameResult rs (m.store a width w next) (n.store a width w next) := by
  rw [store, store, h.memory]
  split
  · have hafter : Alike rs { m with memory := m.memory.write a width w }
        { n with memory := m.memory.write a width w } := ⟨rfl, h.flags, h.programOffset, h.get⟩
    exact sameResult_ok hafter _
  · exact sameResult_error h _ _

theorem sameResult_push (h : m.Alike rs n) (hs : .stack ∈ rs) (w next : Word) :
    SameResult [.stack] (m.push w next) (n.push w next) := by
  rw [push, push, h.get _ hs]
  exact sameResult_store ((h.forget.set .stack (m.get .stack - 4))) _ _ _ _

theorem sameResult_pop (h : m.Alike rs n) (hs : .stack ∈ rs) : SameResult [.stack] m.pop n.pop := by
  rw [pop, pop, h.get _ hs, h.memory]
  split
  · exact sameResult_set h _ _ _
  · exact sameResult_error h _ _

theorem sameResult_divide {g : Word → Word → Word} {b : Register} (h : m.Alike rs n) (hr : r ∈ rs)
    (hb : b ∈ rs) (address next : Word) :
    SameResult [r] (m.divide g r b address next) (n.divide g r b address next) := by
  rw [divide, divide, h.get b hb, h.get r hr]
  split
  · exact sameResult_error h _ _
  · exact sameResult_set h _ _ _

theorem sameResult_combine {g : Word → Word → Word} {b : Register} (h : m.Alike rs n) (hr : r ∈ rs)
    (hb : b ∈ rs) (next : Word) : SameResult [r] (m.combine g r b next) (n.combine g r b next) := by
  rw [combine, combine, h.get b hb, h.get r hr]
  exact sameResult_set h _ _ _

theorem sameResult_overflow (h : m.Alike rs n) (r : Register) (w k : Word) (b : Bool) :
    SameResult [r] ({ m.set r w with flags.overflow := b }, .ok k)
      ({ n.set r w with flags.overflow := b }, .ok k) where
  outcome := rfl
  machine := ⟨h.memory, congrArg (fun f : Flags => { f with overflow := b }) h.flags, h.programOffset,
    by simp⟩
  get j _ q hq := (h.set r w).get q (List.mem_cons.2 (.inl (List.mem_singleton.1 hq)))

theorem SameResult.mono {qs : List Register} {p q : Machine × Except Fault Word}
    (h : SameResult rs p q) (hq : ∀ r ∈ qs, r ∈ rs) : SameResult qs p q :=
  ⟨h.outcome, h.machine, fun k hk r hr => h.get k hk r (hq r hr)⟩

theorem SameResult.single {qs : List Register} {p q : Machine × Except Fault Word}
    (h : SameResult [r] p q) (hq : ∀ s ∈ qs, s = r) : SameResult qs p q :=
  h.mono fun s hs => List.mem_singleton.2 (hq s hs)

theorem sameResult_jumpIf (h : m.Alike rs n) (taken : Bool) (target next : Word) :
    SameResult [] (m.jumpIf taken target next) (n.jumpIf taken target next) := by
  rw [jumpIf, jumpIf, absolute, absolute, h.programOffset]
  exact sameResult_ok h.forget _

theorem sameResult_compute {i : Instruction Word} (ha : i.opcode.asksHost = false)
    (h : m.Alike i.reads n) (address next : Word) :
    SameResult (i.written.filter (· ≠ .instruction)) (m.compute address next i)
      (n.compute address next i) := by
  rcases i with ⟨o, x⟩
  cases o <;> cases x
  case input | output => cases ha
  case nop => exact sameResult_ok h.forget _
  case stat =>
    simp only [compute, h.memory, h.programOffset]
    exact (sameResult_ok (((h.set _ _).set _ _).set _ _) _).mono (by simp [Instruction.written])
  case set => exact (sameResult_set h _ _ _).mono (by simp [Instruction.written, Operands.first?])
  case store8 a b | store16 a b | store32 a b =>
    simp only [compute, h.get a (by simp [Instruction.reads, Operands.first?]),
      h.get b (by simp [Instruction.reads, Operands.first?, Operands.second?])]
    exact (sameResult_store h _ _ _ _).mono (by simp [Instruction.written])
  case load8 a b | load16 a b | load32 a b =>
    simp only [compute, h.get b (by simp [Instruction.reads, Operands.second?])]
    exact (sameResult_load h _ _ _ _).mono (by simp [Instruction.written, Operands.first?])
  case mov a b =>
    simp only [compute, combine, h.get b (by simp [Instruction.reads, Operands.second?])]
    exact (sameResult_set h _ _ _).mono (by simp [Instruction.written, Operands.first?])
  case push a =>
    simp only [compute, h.get a (by simp [Instruction.reads, Operands.first?])]
    exact (sameResult_push h (by simp [Instruction.reads]) _ _).mono (by simp [Instruction.written])
  case call =>
    simp only [compute, absolute, h.programOffset]
    exact (sameResult_push h (by simp [Instruction.reads]) _ _).mono (by simp [Instruction.written])
  case pop a =>
    have hs := h.get .stack (by simp [Instruction.reads])
    by_cases hb : m.memory.Holds (m.get .stack) 4
    · have hb' : n.memory.Holds (n.get .stack) 4 := by rwa [h.memory, hs]
      simp only [compute, pop_of_holds hb, pop_of_holds hb', h.memory, hs]
      exact (sameResult_ok ((h.set _ _).set _ _) _).mono
        (by simp [Instruction.written, Operands.first?, Instruction.reads])
    · have hb' : ¬n.memory.Holds (n.get .stack) 4 := by rwa [h.memory, hs]
      simp only [compute, pop_of_not_holds hb, pop_of_not_holds hb', hs]
      exact sameResult_error h _ _
  case ret =>
    exact (sameResult_pop h (by simp [Instruction.reads])).mono (by simp [Instruction.written])
  case add a b | sub a b =>
    simp only [compute, h.get a (by simp [Instruction.reads, Operands.first?]),
      h.get b (by simp [Instruction.reads, Operands.first?, Operands.second?])]
    exact (sameResult_overflow h _ _ _ _).mono (by simp [Instruction.written, Operands.first?])
  case smul a b | umul a b | and a b | or a b | xor a b | shift a b =>
    refine SameResult.single (r := a) ?_ (by simp [Instruction.written, Operands.first?])
    simp only [compute]
    exact sameResult_combine (r := a) (b := b) h (by simp [Instruction.reads, Operands.first?])
      (by simp [Instruction.reads, Operands.second?]) _
  case sdiv a b | udiv a b | smod a b | umod a b =>
    refine SameResult.single (r := a) ?_ (by simp [Instruction.written, Operands.first?])
    simp only [compute]
    exact sameResult_divide (r := a) (b := b) h (by simp [Instruction.reads, Operands.first?])
      (by simp [Instruction.reads, Operands.second?]) _ _
  case neg a | not a =>
    simp only [compute, h.get a (by simp [Instruction.reads, Operands.first?])]
    exact (sameResult_set h _ _ _).mono (by simp [Instruction.written, Operands.first?])
  case jmpr a =>
    simp only [compute, h.get a (by simp [Instruction.reads, Operands.first?])]
    exact (sameResult_jumpIf h _ _ _).mono (by simp [Instruction.written])
  case jmp | jiz | juz | jis | jus | jio | juo =>
    simp only [compute, h.flags]
    exact (sameResult_jumpIf h _ _ _).mono (by simp [Instruction.written])

/-- The words of other registers matter neither to the result of an instruction nor to its host. -/
theorem sameResult_execute {σ : Type} [Host σ] {g : σ} {i : Instruction Word} (h : m.Alike i.reads n)
    (address next : Word) :
    (n.execute g address next i).2.1 = (m.execute g address next i).2.1 ∧
      SameResult (i.written.filter (· ≠ .instruction))
        ((m.execute g address next i).1, (m.execute g address next i).2.2)
        ((n.execute g address next i).1, (n.execute g address next i).2.2) := by
  cases ha : i.opcode.asksHost with
  | false =>
    rw [execute_eq_compute ha, execute_eq_compute ha]
    exact ⟨rfl, sameResult_compute ha h address next⟩
  | true =>
    obtain ⟨a, rfl | rfl⟩ := eq_of_asksHost ha
    · simp only [execute]
      rcases Host.read g with ⟨_ | w, g'⟩
      · exact ⟨rfl, sameResult_error h _ _⟩
      · exact ⟨rfl, (sameResult_set h a w next).mono (by simp [Instruction.written, Operands.first?])⟩
    · simp only [execute, h.get a (by simp [Instruction.reads, Operands.first?])]
      rcases Host.write g (m.get a) with ⟨_ | _, g'⟩
      · exact ⟨rfl, sameResult_error h _ _⟩
      · exact ⟨rfl, sameResult_ok h.forget _⟩

end Machine

end WordMachine
