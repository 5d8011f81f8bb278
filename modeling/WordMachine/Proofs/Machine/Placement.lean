import WordMachine.Machine.Step
import WordMachine.Proofs.Assembly.Layout
import WordMachine.Proofs.Machine.Memory

/-!
# Code in memory

Lines of assembly text are placed at an offset of a program if the bytes of their instructions, with
every label replaced by its offset in a table, lie there one after another, and every label declared
among them has in the table the offset at which it stands. A machine whose memory ends with the
program fetches the instructions that are placed.
-/

namespace WordMachine.Assembly

def InstructionAt (labels : Labels) (program : List UInt8) (o : Nat) (i : Instruction Value) : Prop :=
  ∃ j, i.traverse (Value.resolve true labels) = .ok j ∧ j.encode <+: program.drop o

/-- Lines have their bytes at an offset of a program, and their labels the offsets of the table. -/
def Placed (labels : Labels) (program : List UInt8) : Nat → List Line → Prop
  | o, [] => o ≤ program.length
  | o, .blank :: ls => Placed labels program o ls
  | o, .label name :: ls => labels.get? name = some (UInt32.ofNat o) ∧ Placed labels program o ls
  | o, .instruction i :: ls =>
    InstructionAt labels program o i ∧ Placed labels program (o + i.size) ls

variable {labels : Labels} {program : List UInt8}

instance (o : Nat) (i : Instruction Value) : Decidable (InstructionAt labels program o i) :=
  match h : i.traverse (Value.resolve true labels) with
  | .ok j => decidable_of_iff (j.encode <+: program.drop o) (by simp [InstructionAt, h])
  | .error _ => isFalse (by simp [InstructionAt, h])

def Placed.decide : (o : Nat) → (ls : List Line) → Decidable (Placed labels program o ls)
  | o, [] => inferInstanceAs (Decidable (o ≤ program.length))
  | o, .blank :: ls => Placed.decide o ls
  | o, .label name :: ls =>
    let _ := Placed.decide o ls
    inferInstanceAs (Decidable (labels.get? name = some (UInt32.ofNat o) ∧ Placed labels program o ls))
  | o, .instruction i :: ls =>
    let _ := Placed.decide (o + i.size) ls
    inferInstanceAs (Decidable (InstructionAt labels program o i ∧ Placed labels program (o + i.size) ls))

instance (o : Nat) (ls : List Line) : Decidable (Placed labels program o ls) := Placed.decide o ls

theorem Placed.extent_le {o : Nat} {ls : List Line} (h : Placed labels program o ls) :
    o + extent ls ≤ program.length := by
  induction ls generalizing o with
  | nil => exact h
  | cons l ls ih =>
    cases l with
    | blank => simpa [Line.size] using ih h
    | label name => simpa [Line.size] using ih h.2
    | instruction i => simpa [Line.size, Nat.add_assoc] using ih h.2

theorem placed_append {o : Nat} {ls ks : List Line} :
    Placed labels program o (ls ++ ks) ↔
      Placed labels program o ls ∧ Placed labels program (o + extent ls) ks := by
  induction ls generalizing o with
  | nil =>
    refine ⟨fun h => ⟨?_, h⟩, And.right⟩
    have hk := Placed.extent_le h
    show o ≤ program.length
    simp only [List.nil_append] at hk
    omega
  | cons l ls ih =>
    cases l with
    | blank => simpa [Placed, Line.size] using ih
    | label name => simp [Placed, Line.size, ih, and_assoc]
    | instruction i => simp [Placed, Line.size, ih, and_assoc, Nat.add_assoc]

theorem Placed.left {o : Nat} {ls ks : List Line} (h : Placed labels program o (ls ++ ks)) :
    Placed labels program o ls := (placed_append.1 h).1

theorem Placed.right {o : Nat} {ls ks : List Line} (h : Placed labels program o (ls ++ ks)) :
    Placed labels program (o + extent ls) ks := (placed_append.1 h).2

theorem Placed.tail {o : Nat} {l : Line} {ls : List Line} (h : Placed labels program o (l :: ls)) :
    Placed labels program (o + l.size) ls := by
  cases l with
  | blank => exact h
  | label name => exact h.2
  | instruction i => exact h.2

end WordMachine.Assembly

namespace WordMachine.Machine

open Assembly

/-- The memory of a machine ends with a program, which starts at the program offset. -/
structure Loaded (program : List UInt8) (m : Machine) : Prop where
  size_eq : m.programOffset.toNat + program.length = m.memory.size
  byte_eq : ∀ i, m.memory.bytes[m.programOffset.toNat + i]? = program[i]?

def At (m : Machine) (o : Nat) : Prop := m.get .instruction = m.absolute (UInt32.ofNat o)

variable {program : List UInt8} {m : Machine} {o : Nat}

theorem Loaded.of_agree {n : Machine} {x : Int} (h : m.Loaded program)
    (hm : m.memory.AgreeFrom n.memory x) (hx : x ≤ m.programOffset.toNat)
    (hp : n.programOffset = m.programOffset) : n.Loaded program := by
  refine ⟨?_, fun i => ?_⟩
  · rw [hp, hm.1]
    exact h.size_eq
  · rw [hp, hm.2 _ (by omega)]
    exact h.byte_eq i

theorem Loaded.drop_eq (h : m.Loaded program) :
    m.memory.bytes.toList.drop m.programOffset.toNat = program := by
  apply List.ext_getElem?
  intro i
  rw [List.getElem?_drop, Array.getElem?_toList, h.byte_eq]

theorem Loaded.toNat_absolute (h : m.Loaded program) (ho : o ≤ program.length) :
    (m.absolute (UInt32.ofNat o)).toNat = m.programOffset.toNat + o := by
  have hs := h.size_eq
  have hlt : m.memory.size < 4294967296 := m.memory.size_lt
  rw [absolute, UInt32.toNat_add, Word.toNat_ofNat_of_lt (by omega)]
  omega

theorem absolute_add (n : Nat) :
    m.absolute (UInt32.ofNat o) + UInt32.ofNat n = m.absolute (UInt32.ofNat (o + n)) := by
  rw [absolute, absolute, UInt32.ofNat_add, UInt32.add_assoc, UInt32.add_assoc,
    UInt32.add_comm m.programOffset]

theorem Loaded.window (h : m.Loaded program) (ho : o ≤ program.length) (width : Nat) :
    m.memory.window (m.absolute (UInt32.ofNat o)) width = (program.drop o).take width := by
  apply List.ext_getElem?
  intro i
  rw [Memory.getElem?_window, h.toNat_absolute ho, Nat.add_assoc, h.byte_eq, List.getElem?_take,
    List.getElem?_drop]

theorem decode_take_six {i : Instruction Word} {bytes : List UInt8} (h : i.encode <+: bytes) :
    Instruction.decode (bytes.take 6) = .ok i := by
  obtain ⟨rest, rfl⟩ := h
  have hl : i.encode.length ≤ 6 := by
    rw [Instruction.length_encode]
    exact i.opcode.size_le
  rw [List.take_append, List.take_of_length_le hl, Instruction.decode_encode_append]

theorem Loaded.fetch (h : m.Loaded program) {i : Instruction Word}
    (hi : i.encode <+: program.drop o) : m.fetch (m.absolute (UInt32.ofNat o)) = .ok i := by
  have hlen := hi.length_le
  rw [Instruction.length_encode, List.length_drop] at hlen
  have hpos := i.opcode.size_pos
  have ho : o ≤ program.length := by
    have hsize : 0 < i.size := hpos
    omega
  rw [Machine.fetch, h.window ho, decode_take_six hi]

variable {σ : Type} [Host σ]

/-- What a step makes of the result of its instruction. -/
def conclude (i : Instruction Word) : Machine × σ × Except Fault Word → Machine × σ × Outcome
  | (m, h, .error f) => (m, h, .fault f)
  | (m, h, .ok next) =>
    ({ m with flags := m.flagsAfter i, registers := m.registers.set .instruction next }, h, .running)

theorem Loaded.step (hl : m.Loaded program) (ha : m.At o) {i : Instruction Word}
    (hi : i.encode <+: program.drop o) (h : σ) :
    m.step h = conclude i
      (m.execute h (m.absolute (UInt32.ofNat o)) (m.absolute (UInt32.ofNat (o + i.size))) i) := by
  have hlen := hi.length_le
  rw [Instruction.length_encode, List.length_drop] at hlen
  have hpos : 0 < i.size := i.opcode.size_pos
  have haddr := hl.toNat_absolute (o := o) (by omega)
  have hsize := hl.size_eq
  rw [Machine.step, ha, if_neg (by omega), hl.fetch hi]
  dsimp only
  rw [absolute_add]
  rcases m.execute h (m.absolute (UInt32.ofNat o)) (m.absolute (UInt32.ofNat (o + i.size))) i with
    ⟨n, k, _ | next⟩ <;> rfl

theorem halts_of_end (hl : m.Loaded program) (ha : m.At program.length) (h : σ) :
    m.step h = (m, h, .halted) := by
  have hsize := hl.size_eq
  have hn := hl.toNat_absolute (Nat.le_refl _)
  have hle : m.memory.size ≤ (m.get .instruction).toNat := by
    rw [ha, hn]
    omega
  rw [Machine.step, if_pos hle]

end WordMachine.Machine
