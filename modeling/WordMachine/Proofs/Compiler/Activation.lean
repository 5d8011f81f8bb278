import WordMachine.Proofs.Compiler.Bodies

/-!
# Activations

The stack of a running program: the words that the function being executed has pushed, its return
address, and below it in the order of calls the functions that wait for it. The words that are known to
be addresses of variables, and the return addresses, stay as they are while variables are stored to.
-/

namespace WordMachine.Compiler

open Assembly Source Machine

/-! ### Words on the stack -/

/-- The word at each place of a frame that is known to hold the address of a variable is that address,
and lies beyond the local variables. -/
def Stacked (locals : Nat) (memory : Memory) (base : Int) (w : List Content) : Prop :=
  ∀ top z rest, w = top ++ .slot z :: rest → locals ≤ rest.length ∧
    memory.word? (base - 4 * (rest.length + 1)) = some (Word.ofInt (base - 4 * z))

section

variable {locals : Nat} {memory memory' : Memory} {base : Int} {w top : List Content} {c : Content}

theorem stacked_any (n : Nat) : Stacked locals memory base (List.replicate n .any) := by
  intro top z rest h
  have hm : Content.slot z ∈ List.replicate n Content.any := by simp [h]
  cases List.eq_of_mem_replicate hm

theorem Stacked.drop (h : Stacked locals memory base (top ++ w)) : Stacked locals memory base w := by
  intro t z rest hw
  exact h (top ++ t) z rest (by rw [hw, List.append_assoc])

theorem Stacked.push (h : Stacked locals memory base w) (hc : ∀ z, c = .slot z → locals ≤ w.length ∧
      memory.word? (base - 4 * (w.length + 1)) = some (Word.ofInt (base - 4 * z))) :
    Stacked locals memory base (c :: w) := by
  intro t z rest hw
  cases t with
  | nil =>
    cases hw
    exact hc z rfl
  | cons d t =>
    cases hw
    exact h t z rest rfl

theorem Stacked.congr (h : Stacked locals memory base w)
    (hm : ∀ top z rest, w = top ++ .slot z :: rest → locals ≤ rest.length →
      memory'.word? (base - 4 * (rest.length + 1)) = memory.word? (base - 4 * (rest.length + 1))) :
    Stacked locals memory' base w := by
  intro t z rest hw
  obtain ⟨hl, hword⟩ := h t z rest hw
  exact ⟨hl, (hm t z rest hw hl).trans hword⟩

end

/-! ### Waiting functions -/

/-- The local variables of a function with this base lie in the stack, or are so few that their
addresses do not come round to memory. -/
def Body.Room (I : Image) (b : Body) (base : Int) : Prop :=
  4 * b.setting.locals ≤ base ∨ I.size + 4 * b.setting.locals < 4294967296

/-- With so many words pushed the stack ends in memory, or it has left memory at its lower end by no more
than a few local variables. -/
def Body.Low (I : Image) (b : Body) (base : Int) (words : Nat) : Prop :=
  0 ≤ base - 4 * words ∨
    I.size + 4 * b.setting.locals < 4294967296 ∧ 0 ≤ base - 4 * words + 4 * b.setting.locals

/-- The return address of a function with so many parameters lies at the base, and so on down to the
start of the program: whoever called the function goes on there, and its own words are intact. -/
inductive Suspended (I : Image) (p : Signature → Prop) (start : Word) (memory : Memory) :
    Int → Nat → Prop
  | bottom : memory.word? (start.toNat - 4) = some (UInt32.ofNat 5 + start) →
      Suspended I p start memory (start.toNat - 4) 0
  | call {b : Body} {o : Nat} {w : List Content} {rest : Code} {base : Int} {arity : Nat} :
      b.Sound I p → b.Room I base → b.At o ⟨w, none⟩ rest → (∀ i < arity, w[i]? = some .any) →
      memory.word? (base - 4 * w.length - 4) = some (UInt32.ofNat o + start) →
      Stacked b.setting.locals memory base w →
      Suspended I p start memory base b.setting.arity →
      Suspended I p start memory (base - 4 * w.length - 4) arity

variable {I : Image} {p : Signature → Prop} {start : Word} {memory memory' : Memory} {base : Int}
  {arity : Nat}

theorem le_length_of_any {w : List Content} (h : ∀ i < arity, w[i]? = some Content.any) :
    arity ≤ w.length := by
  cases arity with
  | zero => exact Nat.zero_le _
  | succ n => exact (List.getElem?_eq_some_iff.1 (h n (Nat.lt_succ_self n))).1

/-- A word that is known to be an address lies below those that may be anything. -/
theorem length_le_of_slot {w top below : List Content} {z : Int}
    (h : ∀ i < arity, w[i]? = some Content.any) (hw : w = top ++ .slot z :: below) :
    arity ≤ top.length := by
  by_cases hlt : top.length < arity
  · have hany := h _ hlt
    rw [hw] at hany
    simp at hany
  · omega

theorem Suspended.bounds (h : Suspended I p start memory base arity) :
    0 ≤ base ∧ base + 4 + 4 * arity ≤ start.toNat := by
  induction h with
  | bottom hw =>
    have hb := Memory.bounds_of_word? hw
    omega
  | call _ _ _ ha hw _ _ ih =>
    have hb := Memory.bounds_of_word? hw
    have hle := le_length_of_any ha
    omega

/-- What waits depends on the return address and on what lies above the parameters alone. -/
theorem Suspended.congr (h : Suspended I p start memory base arity)
    (hm : ∀ y, y = base ∨ base + 4 + 4 * arity ≤ y → memory'.word? y = memory.word? y) :
    Suspended I p start memory' base arity := by
  induction h with
  | bottom hw => exact .bottom ((hm _ (.inl rfl)).trans hw)
  | @call b o w rest base arity hb hr hat ha hw hs hsus ih =>
    have hle := le_length_of_any ha
    refine .call hb hr hat ha ((hm _ (.inl rfl)).trans hw) (hs.congr ?_) (ih fun y hy => hm y (.inr ?_))
    · intro top z rest hsplit _
      refine hm _ (.inr ?_)
      have hnot := length_le_of_slot ha hsplit
      have hlen : w.length = top.length + (rest.length + 1) := by rw [hsplit]; simp
      omega
    · omega

theorem Body.Low.mono {b : Body} {n k : Nat} (h : b.Low I base n) (hk : k ≤ n) : b.Low I base k := by
  unfold Body.Low at *
  omega

/-! ### The function being executed -/

/-- The word that a fact stands for in a frame. -/
def Fact.value (base : Int) : Fact → Word
  | number n => UInt32.ofNat n
  | slot z => Word.ofInt (base - 4 * z)

/-- The machine executes the lines of a body, on a stack of this shape. -/
structure Active (I : Image) (p : Signature → Prop) (m : Machine) (b : Body) (base : Int) (σ : Shape)
    (o : Nat) (rest : Code) : Prop where
  sound : b.Sound I p
  position : b.At o σ rest
  pointer : m.At o
  stack : m.get .stack = Word.ofInt (base - 4 * σ.words.length)
  room : b.Room I base
  low : b.Low I base σ.words.length
  stacked : Stacked b.setting.locals m.memory base σ.words
  known : ∀ r f, σ.known = some (r, f) → m.get r = f.value base
  suspended : Suspended I p m.programOffset m.memory base b.setting.arity

/-- Where a running program can be: at the call of `main`, in a function, at the jump after the call,
or at the end. -/
inductive Phase (I : Image) (p : Signature → Prop) (m : Machine) : Prop
  | starting : m.At 0 → m.get .stack = m.programOffset → Phase I p m
  | active {b base σ o rest} : Active I p m b base σ o rest → Phase I p m
  | returned : m.At 5 → m.get .stack = m.programOffset → Phase I p m
  | finished : m.At I.program.length → m.get .stack = m.programOffset → Phase I p m

/-- The program is in memory, and the machine is somewhere in it. -/
structure Intact (I : Image) (p : Signature → Prop) (m : Machine) : Prop where
  loaded : m.Loaded I.program
  size : m.memory.size = I.size
  phase : Phase I p m

end WordMachine.Compiler
