import WordMachine.Assembly.Program
import WordMachine.Proofs.Encoding

/-!
# The layout of a program

Where every line of a program stands, said of all lines at once. The offset of a line is the size of the
lines before it, a label stands for the offset of its declaration, and the bytes of the program are
those of its instructions one after another, with such offsets in place of labels.
-/

namespace WordMachine.Assembly

/-- How many bytes lines add to a program. -/
def extent : List Line → Nat
  | [] => 0
  | l :: ls => l.size + extent ls

@[simp] theorem extent_nil : extent [] = 0 := rfl

@[simp] theorem extent_cons (l : Line) (ls : List Line) : extent (l :: ls) = l.size + extent ls := rfl

@[simp] theorem extent_append (ls ks : List Line) : extent (ls ++ ks) = extent ls + extent ks := by
  induction ls with
  | nil => simp
  | cons l ls ih => simp [ih, Nat.add_assoc]

theorem extent_concat (ls : List Line) (l : Line) : extent (ls ++ [l]) = extent ls + l.size := by
  rw [extent_append, extent_cons, extent_nil, Nat.add_zero]

theorem extent_take_le (ls : List Line) (i : Nat) : extent (ls.take i) ≤ extent ls := by
  have h := congrArg extent (List.take_append_drop i ls)
  rw [extent_append] at h
  omega

theorem extent_le_of_mem {ls : List Line} {parts : List (List Line)} (h : ls ∈ parts) :
    extent ls ≤ extent parts.flatten := by
  induction h with
  | head => simp
  | tail _ _ ih =>
    rw [List.flatten_cons, extent_append]
    exact Nat.le_trans ih (Nat.le_add_left _ _)

/-! ### What lines declare and refer to -/

def Value.label? : Value → Option String
  | number _ => none
  | label name => some name

namespace Line

def declared? : Line → Option String
  | label name => some name
  | _ => none

def instruction? : Line → Option (Instruction Value)
  | instruction i => some i
  | _ => none

/-- The label that stands in the instruction of a line. -/
def reference? (l : Line) : Option String :=
  l.instruction?.bind fun i => i.operands.value?.bind Value.label?

end Line

def declarations (ls : List Line) : List String := ls.filterMap Line.declared?

/-- The labels in the instructions of lines, in order. -/
def references (ls : List Line) : List String := ls.filterMap Line.reference?

def instructionLines (ls : List Line) : List (Instruction Value) := ls.filterMap Line.instruction?

theorem declared?_eq_some_iff {l : Line} {name : String} :
    l.declared? = some name ↔ l = .label name := by
  cases l <;> simp [Line.declared?]

theorem mem_declarations_iff {ls : List Line} {name : String} :
    name ∈ declarations ls ↔ Line.label name ∈ ls := by
  simp [declarations, declared?_eq_some_iff]

@[simp] theorem declarations_append (ls ks : List Line) :
    declarations (ls ++ ks) = declarations ls ++ declarations ks :=
  List.filterMap_append

@[simp] theorem references_append (ls ks : List Line) :
    references (ls ++ ks) = references ls ++ references ks :=
  List.filterMap_append

/-- Lines declare a label at an offset: it is the size of the lines before the declaration. -/
def DeclaredAt (ls : List Line) (name : String) (o : Nat) : Prop :=
  ∃ i : Nat, ls[i]? = some (.label name) ∧ extent (ls.take i) = o

theorem mem_declarations_iff_declaredAt {ls : List Line} {name : String} :
    name ∈ declarations ls ↔ ∃ o, DeclaredAt ls name o := by
  rw [mem_declarations_iff, List.mem_iff_getElem?]
  constructor
  · rintro ⟨i, hi⟩
    exact ⟨_, i, hi, rfl⟩
  · rintro ⟨_, i, hi, _⟩
    exact ⟨i, hi⟩

theorem not_declaredAt_nil {name : String} {o : Nat} : ¬ DeclaredAt [] name o := by
  rintro ⟨i, hi, _⟩
  simp at hi

theorem declaredAt_cons {l : Line} {ls : List Line} {name : String} {o : Nat} :
    DeclaredAt (l :: ls) name o ↔
      l = .label name ∧ o = 0 ∨ ∃ o', DeclaredAt ls name o' ∧ l.size + o' = o := by
  constructor
  · rintro ⟨i, hi, rfl⟩
    cases i with
    | zero => exact .inl ⟨Option.some.inj hi, rfl⟩
    | succ i => exact .inr ⟨_, ⟨i, hi, rfl⟩, rfl⟩
  · rintro (⟨rfl, rfl⟩ | ⟨_, ⟨i, hi, rfl⟩, rfl⟩)
    · exact ⟨0, rfl, rfl⟩
    · exact ⟨i + 1, hi, rfl⟩

theorem declaredAt_append {ls ks : List Line} {name : String} {o : Nat} :
    DeclaredAt (ls ++ ks) name o ↔
      DeclaredAt ls name o ∨ ∃ o', DeclaredAt ks name o' ∧ extent ls + o' = o := by
  induction ls generalizing o with
  | nil => simp [not_declaredAt_nil]
  | cons l ls ih =>
    simp only [List.cons_append, declaredAt_cons, ih, extent_cons]
    constructor
    · rintro (h | ⟨_, h | ⟨o', h, rfl⟩, rfl⟩)
      · exact .inl (.inl h)
      · exact .inl (.inr ⟨_, h, rfl⟩)
      · exact .inr ⟨o', h, Nat.add_assoc ..⟩
    · rintro ((h | ⟨_, h, rfl⟩) | ⟨o', h, rfl⟩)
      · exact .inl h
      · exact .inr ⟨_, .inl h, rfl⟩
      · exact .inr ⟨_, .inr ⟨o', h, rfl⟩, (Nat.add_assoc ..).symm⟩

theorem declaredAt_concat {ls : List Line} {l : Line} {name : String} {o : Nat} :
    DeclaredAt (ls ++ [l]) name o ↔ DeclaredAt ls name o ∨ l = .label name ∧ o = extent ls := by
  simp only [declaredAt_append, declaredAt_cons, not_declaredAt_nil, false_and, exists_false, or_false]
  constructor
  · rintro (h | ⟨_, ⟨h, rfl⟩, rfl⟩)
    · exact .inl h
    · exact .inr ⟨h, rfl⟩
  · rintro (h | ⟨h, rfl⟩)
    · exact .inl h
    · exact .inr ⟨0, ⟨h, rfl⟩, rfl⟩

theorem DeclaredAt.left {ls : List Line} {name : String} {o : Nat} (h : DeclaredAt ls name o)
    (ks : List Line) : DeclaredAt (ls ++ ks) name o :=
  declaredAt_append.2 (.inl h)

/-! ### Validity -/

/-- A line can stand after others: a label has an offset of 32 bits, and no other offset before. -/
def Line.ValidAfter (before : List Line) : Line → Prop
  | label name =>
    extent before < 4294967296 ∧ ∀ o, DeclaredAt before name o → o = extent before
  | _ => True

def Valid (ls : List Line) : Prop :=
  ∀ (i : Nat) (l : Line), ls[i]? = some l → l.ValidAfter (ls.take i)

section

variable {ls ks : List Line} {l : Line} {name : String} {o o' : Nat}

theorem valid_nil : Valid [] := by
  intro i l h
  simp at h

theorem valid_concat (h : Valid ls) (hl : l.ValidAfter ls) : Valid (ls ++ [l]) := by
  intro i k hk
  by_cases hi : i < ls.length
  · rw [List.getElem?_append_left hi] at hk
    rw [List.take_append_of_le_length (Nat.le_of_lt hi)]
    exact h i k hk
  · obtain ⟨hlt, rfl⟩ := List.getElem?_eq_some_iff.1 hk
    have he : i = ls.length := by
      simp only [List.length_append, List.length_cons, List.length_nil] at hlt
      omega
    subst he
    simpa using hl

theorem Valid.lt (h : Valid ls) (hd : DeclaredAt ls name o) : o < 4294967296 := by
  obtain ⟨i, hi, rfl⟩ := hd
  exact (h i _ hi).1

theorem Valid.offset_unique (h : Valid ls) (hd : DeclaredAt ls name o) (hd' : DeclaredAt ls name o') :
    o = o' := by
  have hlt : ∀ {i j : Nat}, i < j → ls[i]? = some (.label name) → ls[j]? = some (.label name) →
      extent (ls.take i) = extent (ls.take j) := by
    intro i j hij hi hj
    refine (h j _ hj).2 _ ⟨i, by rw [List.getElem?_take_of_lt hij, hi], ?_⟩
    rw [List.take_take, Nat.min_eq_left (Nat.le_of_lt hij)]
  obtain ⟨i, hi, rfl⟩ := hd
  obtain ⟨j, hj, rfl⟩ := hd'
  obtain hij | rfl | hij := Nat.lt_trichotomy i j
  · exact hlt hij hi hj
  · rfl
  · exact (hlt hij hj hi).symm

theorem valid_iff : Valid ls ↔ ∀ name o, DeclaredAt ls name o →
    o < 4294967296 ∧ ∀ o', DeclaredAt ls name o' → o' = o := by
  constructor
  · exact fun h name o hd => ⟨h.lt hd, fun o' hd' => h.offset_unique hd' hd⟩
  · intro h i l hl
    cases l with
    | blank | instruction => exact trivial
    | label name =>
      obtain ⟨hlt, hu⟩ := h name _ ⟨i, hl, rfl⟩
      refine ⟨hlt, fun o hd => hu o ?_⟩
      rw [← List.take_append_drop i ls]
      exact hd.left _

theorem DeclaredAt.unique (hn : (declarations ls).Nodup) (hd : DeclaredAt ls name o)
    (hd' : DeclaredAt ls name o') : o = o' := by
  induction ls generalizing o o' with
  | nil => exact absurd hd not_declaredAt_nil
  | cons l ls ih =>
    have htail : (declarations ls).Nodup :=
      hn.sublist ((List.sublist_cons_self l ls).filterMap _)
    have hhead : l = .label name → ∀ {o}, ¬ DeclaredAt ls name o := by
      rintro rfl o h
      exact (List.nodup_cons.1 hn).1 (mem_declarations_iff_declaredAt.2 ⟨o, h⟩)
    obtain ⟨hl, rfl⟩ | ⟨_, h, rfl⟩ := declaredAt_cons.1 hd
    · obtain ⟨_, rfl⟩ | ⟨_, h', _⟩ := declaredAt_cons.1 hd'
      · rfl
      · exact absurd h' (hhead hl)
    · obtain ⟨hl, _⟩ | ⟨_, h', rfl⟩ := declaredAt_cons.1 hd'
      · exact absurd h (hhead hl)
      · rw [ih htail h h']

/-- Lines of which none declares a label again can stand one after another, if they are short. -/
theorem valid_of_nodup (hn : (declarations ls).Nodup) (hx : extent ls < 4294967296) : Valid ls := by
  refine valid_iff.2 fun name o hd => ⟨?_, fun o' hd' => hd'.unique hn hd⟩
  obtain ⟨i, _, rfl⟩ := hd
  exact Nat.lt_of_le_of_lt (extent_take_le ls i) hx

end

/-! ### Offsets in place of labels -/

def offsetOf (ls : List Line) (name : String) : Nat := extent (ls.takeWhile (· ≠ .label name))

theorem declaredAt_offsetOf {ls : List Line} {name : String} (h : name ∈ declarations ls) :
    DeclaredAt ls name (offsetOf ls name) := by
  rw [mem_declarations_iff] at h
  induction ls with
  | nil => cases h
  | cons l ls ih =>
    by_cases hl : l = .label name
    · exact declaredAt_cons.2 (.inl ⟨hl, by simp [offsetOf, hl]⟩)
    · have ht : (l :: ls).takeWhile (· ≠ .label name) = l :: ls.takeWhile (· ≠ .label name) :=
        List.takeWhile_cons_of_pos (by simpa using hl)
      have ho : offsetOf (l :: ls) name = l.size + offsetOf ls name := by
        rw [offsetOf, ht, extent_cons, offsetOf]
      have hm : .label name ∈ ls := (List.mem_cons.1 h).resolve_left (Ne.symm hl)
      exact declaredAt_cons.2 (.inr ⟨_, ih hm, ho.symm⟩)

theorem Valid.offsetOf_eq {ls : List Line} {name : String} {o : Nat} (h : Valid ls)
    (hd : DeclaredAt ls name o) : offsetOf ls name = o :=
  h.offset_unique (declaredAt_offsetOf (mem_declarations_iff_declaredAt.2 ⟨o, hd⟩)) hd

def Value.word (ls : List Line) : Value → Word
  | number n => Word.ofInt n
  | label name => UInt32.ofNat (offsetOf ls name)

/-- The instructions of a program, with its labels replaced by their offsets. -/
def resolved (ls : List Line) : List (Instruction Word) :=
  (instructionLines ls).map (Instruction.map (Value.word ls))

def image (ls : List Line) : List UInt8 := Instruction.encodeAll (resolved ls)

def Line.bytes (f : Value → Word) : Line → List UInt8
  | instruction i => (i.map f).encode
  | _ => []

theorem length_bytes (f : Value → Word) (l : Line) : (l.bytes f).length = l.size := by
  cases l with
  | blank | label => rfl
  | instruction i => exact (i.map f).length_encode

theorem image_eq (ls : List Line) : image ls = ls.flatMap (Line.bytes (Value.word ls)) := by
  have h : ∀ ks : List Line, Instruction.encodeAll
      ((instructionLines ks).map (Instruction.map (Value.word ls))) =
        ks.flatMap (Line.bytes (Value.word ls)) := by
    intro ks
    induction ks with
    | nil => rfl
    | cons k ks ih =>
      cases k with
      | blank | label => exact ih
      | instruction i => exact congrArg ((i.map (Value.word ls)).encode ++ ·) ih
  exact h ls

end WordMachine.Assembly
