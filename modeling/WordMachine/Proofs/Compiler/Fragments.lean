import WordMachine.Proofs.Compiler.Emission
import WordMachine.Proofs.Compiler.Steps
import WordMachine.Proofs.Machine.Path
import WordMachine.Proofs.Source.Operators

/-!
# Fragments of compiled code

The short sequences of instructions that change registers alone: the address and the value of a
variable, a truth value, and the combination of two operands. Each is a path inside its own code that
ends just past it, or a fault inside its own code.
-/

namespace WordMachine

namespace Register

/-- The registers from `R1` to `R250`, in which expressions are evaluated. -/
def General (r : Register) : Prop := 1 ≤ r.index.toNat ∧ r.index.toNat ≤ 250

instance (r : Register) : Decidable r.General :=
  inferInstanceAs (Decidable (1 ≤ r.index.toNat ∧ r.index.toNat ≤ 250))

theorem General.ne_stack {r : Register} (h : r.General) : r ≠ stack := by
  rintro rfl
  exact absurd h (by decide)

theorem General.ne_instruction {r : Register} (h : r.General) : r ≠ instruction := by
  rintro rfl
  exact absurd h (by decide)

theorem General.ne_result {r : Register} (h : r.General) : r ≠ result := by
  rintro rfl
  exact absurd h (by decide)

theorem toNat_index_adjacent (r : Register) : r.adjacent.index.toNat = r.index.toNat % 250 + 1 := by
  have h : r.index.toNat % 250 < 250 := Nat.mod_lt _ (by decide)
  have hn : r.adjacent.index.toNat = (r.index.toNat % 250 + 1) % 256 := rfl
  omega

theorem general_adjacent (r : Register) : r.adjacent.General := by
  have h := r.toNat_index_adjacent
  constructor <;> omega

theorem General.adjacent_ne {r : Register} (h : r.General) : r.adjacent ≠ r := by
  intro he
  have ha := r.toNat_index_adjacent
  rw [he] at ha
  obtain ⟨h1, h2⟩ := h
  omega

end Register

namespace Machine

open Assembly Compiler

def Inside (start o e : Nat) (a : Nat) : Prop := start + o ≤ a ∧ a < start + e

theorem inside_mono {start o e o' e' : Nat} (ho : o ≤ o') (he : e' ≤ e) (a : Nat)
    (h : Inside start o' e' a) : Inside start o e a := by
  unfold Inside at *
  omega

/-- The machine has come to an offset, and has changed none but these registers, and memory only below
an address. -/
structure Arrives (x : Int) (m m' : Machine) (rs : List Register) (o : Nat) : Prop where
  position : m'.At o
  agree : m.memory.AgreeFrom m'.memory x
  programOffset : m'.programOffset = m.programOffset
  others : ∀ q, q ∉ rs → q ≠ .instruction → m'.get q = m.get q

section

variable {program : List UInt8} {m m₁ m₂ : Machine} {rs rs' : List Register} {o o' : Nat} {x y : Int}

theorem Arrives.trans (h : Arrives x m m₁ rs o) (h' : Arrives x m₁ m₂ rs o') :
    Arrives x m m₂ rs o' where
  position := h'.position
  agree := h.agree.trans h'.agree
  programOffset := h'.programOffset.trans h.programOffset
  others q hq hi := (h'.others q hq hi).trans (h.others q hq hi)

theorem Arrives.mono (h : Arrives x m m₁ rs o) (hx : x ≤ y) (hr : ∀ q ∈ rs, q ∈ rs') :
    Arrives y m m₁ rs' o where
  position := h.position
  agree := h.agree.mono hx
  programOffset := h.programOffset
  others q hq hi := h.others q (fun hm => hq (hr q hm)) hi

/-- A register that has its first word again need not be counted. -/
theorem Arrives.restore {r : Register} (h : Arrives x m m₁ (r :: rs) o) (hr : m₁.get r = m.get r) :
    Arrives x m m₁ rs o where
  position := h.position
  agree := h.agree
  programOffset := h.programOffset
  others q hq hi := by
    by_cases he : q = r
    · rw [he, hr]
    · exact h.others q (by simp [he, hq]) hi

theorem Arrives.loaded (h : Arrives x m m₁ rs o) (hx : x ≤ m.programOffset.toNat)
    (hl : m.Loaded program) : m₁.Loaded program :=
  hl.of_agree h.agree hx h.programOffset

theorem Arrives.memory (h : Arrives 0 m m₁ rs o) : m₁.memory = m.memory := h.agree.eq

theorem arrives_settle (m : Machine) (r : Register) (w : Word) (f : Flags) (o : Nat) :
    Arrives 0 m (m.settle r w f (m.absolute (UInt32.ofNat o))) [r] o where
  position := by rw [At, get_settle, if_pos rfl]; rfl
  agree := .refl _ _
  programOffset := rfl
  others q hq hi := by
    rw [get_settle, if_neg hi, if_neg (by simpa using hq)]

theorem arrives_goto (m : Machine) (o : Nat) :
    Arrives 0 m (m.goto (m.absolute (UInt32.ofNat o))) [] o where
  position := by rw [At, get_goto, if_pos rfl]; rfl
  agree := .refl _ _
  programOffset := rfl
  others q _ hi := by rw [get_goto, if_neg hi]

theorem get_settle_self (m : Machine) {r : Register} (w next : Word) (f : Flags)
    (hr : r ≠ .instruction) : (m.settle r w f next).get r = w := by
  rw [get_settle, if_neg hr, if_pos rfl]

theorem Loaded.inside (hl : m.Loaded program) (ha : m.At o) {e : Nat} (he : o < e)
    (hp : e ≤ program.length) :
    Inside m.programOffset.toNat o e (m.get .instruction).toNat := by
  rw [ha, hl.toNat_absolute (by omega)]
  unfold Inside
  omega

end

section

variable {σ : Type} [Host σ] {labels : Labels} {program : List UInt8} {m m₁ m₂ : Machine}
  {o o₁ o₂ : Nat} {rest : Code} {h h₁ : σ} {r a b : Register} {rs rs' : List Register} {w v : Word}
  {x y : Int}

/-- The machine runs from one offset to another without leaving the code between them, and changes
none but these registers, and memory only below an address. -/
structure Runs (x : Int) (m : Machine) (h : σ) (m' : Machine) (rs : List Register) (o o' : Nat) :
    Prop extends Arrives x m m' rs o' where
  path : Path (Inside m.programOffset.toNat o o') m h m' h
  le : o ≤ o'

theorem Runs.trans (p : Runs x m h m₁ rs o o₁) (q : Runs x m₁ h m₂ rs o₁ o₂) :
    Runs x m h m₂ rs o o₂ where
  toArrives := p.toArrives.trans q.toArrives
  path := by
    have hq := q.path
    rw [p.programOffset] at hq
    exact (p.path.mono (inside_mono (Nat.le_refl o) q.le)).trans
      (hq.mono (inside_mono p.le (Nat.le_refl o₂)))
  le := Nat.le_trans p.le q.le

theorem Runs.mono (p : Runs x m h m₁ rs o o₁) (hx : x ≤ y) (hr : ∀ q ∈ rs, q ∈ rs') :
    Runs y m h m₁ rs' o o₁ where
  toArrives := p.toArrives.mono hx hr
  path := p.path
  le := p.le

theorem Runs.restore (p : Runs x m h m₁ (r :: rs) o o₁) (hr : m₁.get r = m.get r) :
    Runs x m h m₁ rs o o₁ where
  toArrives := p.toArrives.restore hr
  path := p.path
  le := p.le

theorem Runs.loaded_of_zero (p : Runs 0 m h m₁ rs o o₁) (hl : m.Loaded program) :
    m₁.Loaded program := p.loaded (by omega) hl

theorem Runs.faults {f : Fault} (p : Runs x m h m₁ rs o o₁)
    (q : Faults (Inside m₁.programOffset.toNat o₁ o₂) m₁ h f h₁) (ho : o₁ ≤ o₂) :
    Faults (Inside m.programOffset.toNat o o₂) m h f h₁ := by
  rw [p.programOffset] at q
  exact (p.path.mono (inside_mono (Nat.le_refl o) ho)).faults
    (q.mono (inside_mono p.le (Nat.le_refl o₂)))

theorem runs_of_step {i : Instruction Value} {e : Nat} (hl : m.Loaded program) (ha : m.At o)
    (hp : Placed labels program o (.instruction i :: rest)) (he : e = o + i.size)
    (hs : m.step h = (m₁, h, .running)) (hm : Arrives x m m₁ rs e) : Runs x m h m₁ rs o e where
  toArrives := hm
  path := by
    have hlen := hp.tail.extent_le
    have hpos : 0 < i.size := i.opcode.size_pos
    simp only [Line.size] at hlen
    exact .single (hl.inside ha (by omega) (by omega)) hs
  le := by omega

theorem faults_of_step {i : Instruction Value} {f : Fault} (hl : m.Loaded program) (ha : m.At o)
    (hp : Placed labels program o (.instruction i :: rest)) (hs : m.step h = (m₁, h₁, .fault f)) :
    Faults (Inside m.programOffset.toNat o (o + i.size)) m h f h₁ := by
  have hlen := hp.tail.extent_le
  have hpos : 0 < i.size := i.opcode.size_pos
  simp only [Line.size] at hlen
  exact .single (hl.inside ha (by omega) (by omega)) hs

/-! ### Single instructions -/

theorem runs_settle {i : Instruction Value} {e : Nat} {g : Flags} (hr : r ≠ .instruction)
    (hl : m.Loaded program) (ha : m.At o) (hp : Placed labels program o (.instruction i :: rest))
    (he : e = o + i.size)
    (hs : m.step h = (m.settle r w g (m.absolute (UInt32.ofNat e)), h, .running)) :
    ∃ m', Runs 0 m h m' [r] o e ∧ m'.get r = w ∧ m'.flags = g :=
  ⟨_, runs_of_step hl ha hp he hs (arrives_settle ..), get_settle_self _ _ _ _ hr, rfl⟩

theorem runs_set {n : Nat} (hr : r ≠ .instruction) (hl : m.Loaded program) (ha : m.At o)
    (hp : Placed labels program o (Code.set r n :: rest)) (h : σ) :
    ∃ m', Runs 0 m h m' [r] o (o + 6) ∧ m'.get r = UInt32.ofNat n ∧ m'.flags = m.flags :=
  runs_settle hr hl ha hp rfl (step_set hl ha hp h)

theorem runs_mov (hr : a ≠ .instruction) (hl : m.Loaded program) (ha : m.At o)
    (hp : Placed labels program o (Code.mov a b :: rest)) (h : σ) :
    ∃ m', Runs 0 m h m' [a] o (o + 3) ∧ m'.get a = m.get b ∧ m'.flags = m.flags :=
  runs_settle hr hl ha hp rfl (step_mov hl ha hp h)

theorem runs_load (hr : a ≠ .instruction) (hl : m.Loaded program) (ha : m.At o)
    (hp : Placed labels program o (Code.load a b :: rest)) (hb : m.memory.Holds (m.get b) 4)
    (h : σ) :
    ∃ m', Runs 0 m h m' [a] o (o + 3) ∧ m'.get a = m.memory.read (m.get b) 4 ∧ m'.flags = m.flags :=
  runs_settle hr hl ha hp rfl (step_load hl ha hp hb h)

theorem runs_combine {line : Register → Register → Line} {f : Word → Word → Word}
    (hc : Combines line f) (hr : a ≠ .instruction) (hl : m.Loaded program) (ha : m.At o)
    (hp : Placed labels program o (line a b :: rest)) (h : σ) :
    ∃ m', Runs 0 m h m' [a] o (o + 3) ∧ m'.get a = f (m.get a) (m.get b) ∧
      m'.flags.Describes (m'.get a) := by
  obtain ⟨g, hg, hs⟩ := step_combine hc hl ha hp h
  have hrun : ∃ m', Runs 0 m h m' [a] o (o + 3) ∧ m'.get a = f (m.get a) (m.get b) ∧ m'.flags = g := by
    cases hc <;> exact runs_settle hr hl ha hp rfl hs
  obtain ⟨m', r, hv, hf⟩ := hrun
  refine ⟨m', r, hv, ?_⟩
  rw [hf, hv]
  exact hg

theorem runs_divide {line : Register → Register → Line} {f : Word → Word → Word}
    (hc : Divides line f) (hr : a ≠ .instruction) (hl : m.Loaded program) (ha : m.At o)
    (hp : Placed labels program o (line a b :: rest)) (hb : m.get b ≠ 0) (h : σ) :
    ∃ m', Runs 0 m h m' [a] o (o + 3) ∧ m'.get a = f (m.get a) (m.get b) := by
  obtain ⟨g, hs⟩ := step_divide hc hl ha hp hb h
  have hrun : ∃ m', Runs 0 m h m' [a] o (o + 3) ∧ m'.get a = f (m.get a) (m.get b) ∧ m'.flags = g := by
    cases hc <;> exact runs_settle hr hl ha hp rfl hs
  obtain ⟨m', r, hv, _⟩ := hrun
  exact ⟨m', r, hv⟩

theorem runs_convert {line : Register → Line} {f : Word → Word} (hc : Converts line f)
    (hr : a ≠ .instruction) (hl : m.Loaded program) (ha : m.At o)
    (hp : Placed labels program o (line a :: rest)) (h : σ) :
    ∃ m', Runs 0 m h m' [a] o (o + 2) ∧ m'.get a = f (m.get a) := by
  obtain ⟨g, hs⟩ := step_convert hc hl ha hp h
  have hrun : ∃ m', Runs 0 m h m' [a] o (o + 2) ∧ m'.get a = f (m.get a) ∧ m'.flags = g := by
    cases hc <;> exact runs_settle hr hl ha hp rfl hs
  obtain ⟨m', r, hv, _⟩ := hrun
  exact ⟨m', r, hv⟩

/-! ### Variables -/

/-- The address of a word at a distance from the top of the stack. -/
def slot (m : Machine) (n : Nat) : Word := m.get .stack + UInt32.ofNat (4 * n)

theorem runs_addressAt {n : Nat} (hr : r.General) (hl : m.Loaded program) (ha : m.At o)
    (hp : Placed labels program o (addressAt n r ++ rest)) (h : σ) :
    ∃ m', Runs 0 m h m' [r] o (o + extent (addressAt n r)) ∧ m'.get r = m.slot n := by
  unfold addressAt at *
  by_cases hn : n = 0
  · rw [if_pos hn] at *
    obtain ⟨m₁, r₁, g₁, _⟩ := runs_mov hr.ne_instruction hl ha hp h
    refine ⟨m₁, r₁, ?_⟩
    rw [g₁, slot, hn]
    simp
  · rw [if_neg hn] at *
    obtain ⟨m₁, r₁, g₁, _⟩ := runs_set hr.ne_instruction hl ha hp h
    obtain ⟨m₂, r₂, g₂, _⟩ := runs_combine .add hr.ne_instruction (r₁.loaded_of_zero hl) r₁.position hp.tail h
    refine ⟨m₂, r₁.trans r₂, ?_⟩
    have hs := r₁.others .stack (by simpa using hr.ne_stack.symm) Register.stack_ne_instruction
    rw [g₂, g₁, hs, slot, UInt32.add_comm]

theorem runs_valueAt {n : Nat} (hr : r.General) (hl : m.Loaded program) (ha : m.At o)
    (hp : Placed labels program o (valueAt n r ++ rest)) (hb : m.memory.Holds (m.slot n) 4) (h : σ) :
    ∃ m', Runs 0 m h m' [r] o (o + extent (valueAt n r)) ∧ m'.get r = m.memory.read (m.slot n) 4 := by
  unfold valueAt at *
  by_cases hn : n = 0
  · have hs : m.slot n = m.get .stack := by
      rw [slot, hn]
      simp
    rw [if_pos hn] at *
    rw [hs] at hb ⊢
    obtain ⟨m₁, r₁, g₁, _⟩ := runs_load hr.ne_instruction hl ha hp hb h
    exact ⟨m₁, r₁, g₁⟩
  · rw [if_neg hn, List.append_assoc] at *
    obtain ⟨m₁, r₁, g₁⟩ := runs_addressAt hr hl ha hp h
    have hb₁ : m₁.memory.Holds (m₁.get r) 4 := by rwa [r₁.memory, g₁]
    obtain ⟨m₂, r₂, g₂, _⟩ := runs_load hr.ne_instruction (r₁.loaded_of_zero hl) r₁.position hp.right hb₁ h
    refine ⟨m₂, ?_, ?_⟩
    · rw [extent_append, ← Nat.add_assoc]
      exact r₁.trans r₂
    · rw [g₂, r₁.memory, g₁]

/-! ### The stack -/

theorem top_sub_four {x : Int} (hx : m.get .stack = Word.ofInt x) :
    m.get .stack - 4 = Word.ofInt (x - 4) := by
  rw [hx, Word.ofInt_sub, Word.ofInt_four]

theorem top_add_four {x : Int} (hx : m.get .stack = Word.ofInt x) :
    m.get .stack + 4 = Word.ofInt (x + 4) := by
  rw [hx, Word.ofInt_add, Word.ofInt_four]

theorem holds_below (hx : m.get .stack = Word.ofInt x) (h4 : 4 ≤ x) (hs : x ≤ m.memory.size) :
    m.memory.Holds (m.get .stack - 4) 4 := by
  rw [top_sub_four hx]
  exact Memory.holds_ofInt (by omega) (by omega)

theorem holds_top (hx : m.get .stack = Word.ofInt x) (hw : m.memory.word? x = some w) :
    m.memory.Holds (m.get .stack) 4 := by
  rw [hx]
  exact Memory.holds_of_word? hw

theorem slot_of_stack (hx : m.get .stack = Word.ofInt x) (k : Nat) :
    m.slot k = Word.ofInt (x + 4 * k) := by
  have hk : ((4 * k : Nat) : Int) = 4 * (k : Int) := by omega
  rw [slot, hx, Word.ofInt_add, ← hk, Word.ofInt_natCast]

theorem read_slot {k : Nat} (hx : m.get .stack = Word.ofInt x) (hw : m.memory.word? (x + 4 * k) = some w) :
    m.memory.Holds (m.slot k) 4 ∧ m.memory.read (m.slot k) 4 = w := by
  rw [slot_of_stack hx]
  exact ⟨Memory.holds_of_word? hw, Memory.read_of_word? hw⟩

theorem arrives_pushed (hx : m.get .stack = Word.ofInt x) (h4 : 4 ≤ x) (hs : x ≤ m.memory.size)
    (w : Word) (o : Nat) :
    Arrives x m (m.pushed w (m.absolute (UInt32.ofNat o))) [.stack] o ∧
      (m.pushed w (m.absolute (UInt32.ofNat o))).get .stack = Word.ofInt (x - 4) ∧
      (m.pushed w (m.absolute (UInt32.ofNat o))).memory.word? (x - 4) = some w := by
  have htop := top_sub_four hx
  have hm := m.memory_pushed w (m.absolute (UInt32.ofNat o))
  rw [htop] at hm
  refine ⟨⟨?_, ?_, rfl, ?_⟩, ?_, ?_⟩
  · rw [At, get_pushed, if_pos rfl]
    rfl
  · rw [hm]
    exact Memory.agreeFrom_write _ (by omega) (by omega) (by omega)
  · intro q hq hi
    rw [get_pushed, if_neg hi, if_neg (by simpa using hq)]
  · rw [get_pushed, if_neg Register.stack_ne_instruction, if_pos rfl, htop]
  · rw [hm]
    exact Memory.word?_write_self _ (by omega) (by omega)

theorem runs_push (hx : m.get .stack = Word.ofInt x) (h4 : 4 ≤ x) (hs : x ≤ m.memory.size)
    (hl : m.Loaded program) (ha : m.At o) (hp : Placed labels program o (Code.push r :: rest))
    (h : σ) :
    ∃ m', Runs x m h m' [.stack] o (o + 2) ∧ m'.get .stack = Word.ofInt (x - 4) ∧
      m'.memory.word? (x - 4) = some (m.get r) := by
  obtain ⟨hm, hstack, hword⟩ := arrives_pushed hx h4 hs (m.get r) (o + 2)
  exact ⟨_, runs_of_step hl ha hp rfl (step_push hl ha hp (holds_below hx h4 hs) h) hm, hstack, hword⟩

theorem arrives_popped (m : Machine) (r : Register) (w : Word) (o : Nat) :
    Arrives 0 m ((m.set .stack (m.get .stack + 4)).settle r w m.flags (m.absolute (UInt32.ofNat o)))
      [.stack, r] o where
  position := by rw [At, get_settle, if_pos rfl]; rfl
  agree := .refl _ _
  programOffset := rfl
  others q hq hi := by
    obtain ⟨hq₁, hq₂⟩ : q ≠ .stack ∧ q ≠ r := by simpa using hq
    rw [get_settle, if_neg hi, if_neg hq₂, get_set, if_neg hq₁]

theorem runs_pop (hx : m.get .stack = Word.ofInt x) (hw : m.memory.word? x = some w)
    (hr : r ≠ .instruction) (hrs : r ≠ .stack) (hl : m.Loaded program) (ha : m.At o)
    (hp : Placed labels program o (Code.pop r :: rest)) (h : σ) :
    ∃ m', Runs 0 m h m' [.stack, r] o (o + 2) ∧ m'.get r = w ∧
      m'.get .stack = Word.ofInt (x + 4) := by
  have hb := holds_top hx hw
  refine ⟨_, runs_of_step hl ha hp rfl (step_pop hl ha hp hb h) (arrives_popped ..), ?_, ?_⟩
  · rw [get_settle_self _ _ _ _ hr, hx, Memory.read_of_word? hw]
  · rw [get_settle, if_neg Register.stack_ne_instruction, if_neg hrs.symm, get_set, if_pos rfl,
      top_add_four hx]

/-! ### Truth values -/

theorem extent_truthCode {jump : Label → Line} {c : Flags → Bool} (hc : Branches jump c) (r : Register)
    (id : Nat) : extent (truthCode jump r id) = 14 := by
  cases hc <;> rfl

theorem runs_truth {jump : Label → Line} {c : Flags → Bool} {id : Nat} (hc : Branches jump c)
    (hr : r ≠ .instruction) (hl : m.Loaded program) (ha : m.At o)
    (hp : Placed labels program o (truthCode jump r id ++ rest)) (h : σ) :
    ∃ m', Runs 0 m h m' [r] o (o + 14) ∧ m'.get r = Source.truth (c m.flags = true) := by
  have hlen := hp.left.extent_le
  rw [extent_truthCode hc] at hlen
  have hv : labels.get? (Label.truth id).text = some (UInt32.ofNat (o + 14)) := by
    cases hc <;> exact hp.tail.tail.tail.1
  obtain ⟨m₁, r₁, g₁, f₁⟩ := runs_set hr hl ha hp h
  have hl₁ := r₁.loaded_of_zero hl
  have hp₁ : Placed labels program (o + 6) (jump (.truth id) :: Code.xor r r :: _) := hp.tail
  have hs := step_branch hc hl₁ r₁.position hp₁ hv h
  rw [f₁] at hs
  have hin : ∀ e, o + 6 < e → e ≤ o + 14 →
      Inside m₁.programOffset.toNat (o + 6) e (m₁.get .instruction).toNat := by
    intro e he he'
    exact hl₁.inside r₁.position he (by omega)
  by_cases hf : c m.flags = true
  · rw [if_pos hf] at hs
    have r₂ : Runs 0 m₁ h (m₁.goto (m₁.absolute (UInt32.ofNat (o + 14)))) [r] (o + 6) (o + 14) := {
      toArrives := (arrives_goto m₁ (o + 14)).mono (Int.le_refl 0) (by simp)
      path := .single (hin (o + 14) (by omega) (by omega)) hs
      le := by omega }
    refine ⟨_, r₁.trans r₂, ?_⟩
    rw [get_goto, if_neg hr, g₁, Source.truth, if_pos hf]
    rfl
  · rw [if_neg hf] at hs
    have r₂ : Runs 0 m₁ h (m₁.goto (m₁.absolute (UInt32.ofNat (o + 11)))) [r] (o + 6) (o + 11) := {
      toArrives := (arrives_goto m₁ (o + 11)).mono (Int.le_refl 0) (by simp)
      path := .single (hin (o + 11) (by omega) (by omega)) hs
      le := by omega }
    have hp₂ : Placed labels program (o + 11) (Code.xor r r :: Code.label (.truth id) :: rest) := by
      cases hc <;> exact hp₁.tail
    obtain ⟨m₃, r₃, g₃, _⟩ := runs_combine .xor hr (r₂.loaded_of_zero hl₁) r₂.position hp₂ h
    refine ⟨m₃, (r₁.trans r₂).trans r₃, ?_⟩
    rw [g₃, UInt32.xor_self, Source.truth, if_neg hf]

/-! ### Operators -/

theorem truth_congr {p q : Prop} [Decidable p] [Decidable q] (h : p ↔ q) :
    Source.truth p = Source.truth q := by
  simp only [Source.truth, h]

theorem runs_comparison {line : Register → Register → Line} {f : Word → Word → Word}
    {jump : Label → Line} {c : Flags → Bool} {id : Nat} {x y : Register} (hc : Combines line f)
    (hb : Branches jump c) (hx : x ≠ .instruction) (hr : r ≠ .instruction) (hl : m.Loaded program)
    (ha : m.At o) (hp : Placed labels program o (line x y :: truthCode jump r id ++ rest)) (h : σ) :
    ∃ m' g, Runs 0 m h m' [r, x] o (o + extent (line x y :: truthCode jump r id)) ∧
      m'.get r = Source.truth (c g = true) ∧ Flags.Describes g (f (m.get x) (m.get y)) := by
  have hsize : (line x y).size = 3 := by cases hc <;> rfl
  obtain ⟨m₁, r₁, g₁, f₁⟩ := runs_combine hc hx hl ha hp h
  have hp₁ := Placed.tail hp
  rw [hsize] at hp₁
  obtain ⟨m₂, r₂, g₂⟩ := runs_truth hb hr (r₁.loaded_of_zero hl) r₁.position hp₁ h
  rw [extent_cons, hsize, extent_truthCode hb, ← Nat.add_assoc]
  refine ⟨m₂, m₁.flags, (r₁.mono (Int.le_refl 0) (by simp)).trans (r₂.mono (Int.le_refl 0) (by simp)), g₂, ?_⟩
  rwa [g₁] at f₁

theorem runs_combination {op : Source.BinaryOp} {id : Nat} (hr : r.General) (hl : m.Loaded program)
    (ha : m.At o) (hp : Placed labels program o (combination op r r.adjacent id ++ rest))
    (hv : op.apply (m.get r) (m.get r.adjacent) = some w) (h : σ) :
    ∃ m', Runs 0 m h m' [r, r.adjacent] o (o + extent (combination op r r.adjacent id)) ∧
      m'.get r = w := by
  have hi := hr.ne_instruction
  have hi' := (r.general_adjacent).ne_instruction
  have combined {line : Register → Register → Line} {f : Word → Word → Word} (hc : Combines line f)
      (hp : Placed labels program o (line r r.adjacent :: rest))
      (hf : f (m.get r) (m.get r.adjacent) = w) :
      ∃ m', Runs 0 m h m' [r, r.adjacent] o (o + extent [line r r.adjacent]) ∧ m'.get r = w := by
    obtain ⟨m₁, r₁, g₁, _⟩ := runs_combine hc hi hl ha hp h
    have hsize : (line r r.adjacent).size = 3 := by cases hc <;> rfl
    rw [extent_cons, extent_nil, hsize]
    exact ⟨m₁, r₁.mono (Int.le_refl 0) (by simp), g₁.trans hf⟩
  have divided {line : Register → Register → Line} {f : Word → Word → Word} (hc : Divides line f)
      (hp : Placed labels program o (line r r.adjacent :: rest)) (hz : m.get r.adjacent ≠ 0)
      (hf : f (m.get r) (m.get r.adjacent) = w) :
      ∃ m', Runs 0 m h m' [r, r.adjacent] o (o + extent [line r r.adjacent]) ∧ m'.get r = w := by
    obtain ⟨m₁, r₁, g₁⟩ := runs_divide hc hi hl ha hp hz h
    have hsize : (line r r.adjacent).size = 3 := by cases hc <;> rfl
    rw [extent_cons, extent_nil, hsize]
    exact ⟨m₁, r₁.mono (Int.le_refl 0) (by simp), g₁.trans hf⟩
  cases op with
  | equal =>
    cases hv
    obtain ⟨m₁, g, r₁, g₁, hz, _⟩ := runs_comparison .xor .jiz hi' hi hl ha hp h
    refine ⟨m₁, r₁, g₁.trans (truth_congr ?_)⟩
    rw [hz, decide_eq_true_iff, Source.xor_eq_zero_iff]
  | less =>
    cases hv
    obtain ⟨m₁, g, r₁, g₁, _, hs⟩ := runs_comparison .sub .jis hi hi hl ha hp h
    refine ⟨m₁, r₁.mono (Int.le_refl 0) (by simp), g₁.trans (truth_congr ?_)⟩
    rw [hs, decide_eq_true_iff]
  | greater =>
    cases hv
    obtain ⟨m₁, g, r₁, g₁, _, hs⟩ := runs_comparison .sub .jis hi' hi hl ha hp h
    refine ⟨m₁, r₁, g₁.trans (truth_congr ?_)⟩
    rw [hs, decide_eq_true_iff]
  | add => exact combined .add hp (Option.some.inj hv)
  | subtract => exact combined .sub hp (Option.some.inj hv)
  | bitOr => exact combined .or hp (Option.some.inj hv)
  | bitXor => exact combined .xor hp (Option.some.inj hv)
  | multiply => exact combined .smul hp ((Source.multiply_signed _ _).trans (Option.some.inj hv))
  | divide =>
    by_cases hz : m.get r.adjacent = 0
    · simp [Source.BinaryOp.apply, hz] at hv
    · rw [Source.BinaryOp.apply, if_neg hz] at hv
      exact divided .sdiv hp hz ((Source.ofInt_tdiv _ _).symm.trans (Option.some.inj hv))
  | remainder =>
    by_cases hz : m.get r.adjacent = 0
    · simp [Source.BinaryOp.apply, hz] at hv
    · rw [Source.BinaryOp.apply, if_neg hz] at hv
      exact divided .smod hp hz ((Source.ofInt_tmod _ _).symm.trans (Option.some.inj hv))
  | bitAnd => exact combined .and hp (Option.some.inj hv)

theorem faults_combination {op : Source.BinaryOp} {id : Nat} (hl : m.Loaded program)
    (ha : m.At o) (hp : Placed labels program o (combination op r r.adjacent id ++ rest))
    (hv : op.apply (m.get r) (m.get r.adjacent) = none) (h : σ) :
    Faults (Inside m.programOffset.toNat o (o + extent (combination op r r.adjacent id))) m h
      (.divisionByZero (m.absolute (UInt32.ofNat o))) h := by
  have hz : m.get r.adjacent = 0 := by
    by_cases hz : m.get r.adjacent = 0
    · exact hz
    · cases op <;> simp [Source.BinaryOp.apply, hz] at hv
  cases op with
  | divide => exact faults_of_step hl ha hp (step_divide_fault .sdiv hl ha hp hz h)
  | remainder => exact faults_of_step hl ha hp (step_divide_fault .smod hl ha hp hz h)
  | equal | less | greater | add | subtract | bitOr | bitXor | multiply | bitAnd => cases hv

end

end Machine

end WordMachine
