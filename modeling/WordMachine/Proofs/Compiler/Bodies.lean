import WordMachine.Proofs.Compiler.Arrangement
import WordMachine.Proofs.Compiler.Assembled

/-!
# Functions in an assembled program

Where each function of an assembled program lies, and what is known of the code from a position in it
on: the shape of the stack there, and that a return ends it.
-/

namespace WordMachine.Compiler

open Assembly Source Machine

/-! ### Bodies -/

/-- An assembled program, its lines and labels, and the size of the memory that it is meant for. -/
structure Image where
  code : Code
  labels : Labels
  program : List UInt8
  size : Nat

/-- Where a function starts, its lines and the shapes of its labels. -/
structure Body where
  start : Nat
  lines : Code
  setting : Setting
  shapeOf : Nat → List Content

/-- The body lies in the program, calls such functions alone and stores to its variables alone. -/
structure Body.Sound (I : Image) (p : Signature → Prop) (b : Body) : Prop where
  placed : Placed I.labels I.program b.start b.lines
  closed : Closed b.setting b.shapeOf b.lines
  arranged : Arranged b.lines
  ordinary : AllOrdinary p b.lines
  safe : b.setting.safe
  boundary : ∃ before after, I.code = before ++ b.lines ++ after ∧ extent before = b.start

/-- The lines from an offset of a body on, and the shape of the stack there. -/
structure Body.At (b : Body) (o : Nat) (σ : Shape) (rest : Code) : Prop where
  split : ∃ before, b.lines = before ++ rest ∧ o = b.start + extent before
  typed : ∃ σ₁, Typed b.setting b.shapeOf σ rest σ₁
  last : rest.getLast? = some Code.ret

/-- So many words fit below the stack pointer, or they are so few that their addresses do not come round
to memory from above. -/
def HasRoom (m : Machine) (words : Nat) : Prop :=
  4 * words ≤ (m.get .stack).toNat ∨ m.memory.size + 4 * words < 4294967296

/-- Every function that is called has a body, and the program starts by calling `main`. A machine of the
right size that enters a body has room for its local variables if it satisfies the condition. -/
structure Image.CompleteFor (I : Image) (p : Signature → Prop) (E : Machine → Prop) : Prop where
  placed : Placed I.labels I.program 0 I.code
  length : I.program.length = extent I.code
  code : ∃ middle, I.code = bootstrap ++ middle ++ [Code.label .programEnd]
  main : p .main
  bodies : ∀ g, p g → ∃ b : Body, b.Sound I p ∧ b.setting.arity = g.arity ∧
    I.labels.get? (Label.function g).text = some (UInt32.ofNat b.start) ∧
    (∀ m : Machine, E m → m.memory.size = I.size → m.At b.start → HasRoom m b.setting.locals) ∧
    ∃ rest, b.At b.start ⟨[], none⟩ rest

/-- Every machine of the right size has room for the local variables of each body. -/
def Image.Complete (I : Image) (p : Signature → Prop) : Prop := I.CompleteFor p fun _ => True

variable {I : Image} {p : Signature → Prop} {b : Body} {o : Nat} {σ : Shape} {line : Line}
  {rest : Code}

/-! ### Positions -/

theorem Body.At.mem (h : b.At o σ (line :: rest)) : line ∈ b.lines := by
  obtain ⟨before, hb, _⟩ := h.split
  simp [hb]

theorem Body.At.placed (h : b.At o σ rest) (hb : b.Sound I p) :
    Placed I.labels I.program o rest := by
  obtain ⟨before, hlines, rfl⟩ := h.split
  have hp := hb.placed
  rw [hlines] at hp
  exact hp.right

theorem Body.At.boundary (h : b.At o σ rest) (hb : b.Sound I p) :
    ∃ before after, I.code = before ++ (rest ++ after) ∧ extent before = o := by
  obtain ⟨first, hlines, rfl⟩ := h.split
  obtain ⟨before, after, hcode, hstart⟩ := hb.boundary
  refine ⟨before ++ first, after, ?_, ?_⟩
  · rw [hcode, hlines]
    simp only [List.append_assoc]
  · rw [extent_append, hstart]

/-- The next line that is not the last one leaves the shape of the stack that it is allowed to. -/
theorem Body.At.next (h : b.At o σ (line :: rest)) : ∃ σ₁, Allowed b.setting b.shapeOf σ line σ₁ ∧
    (line ≠ Code.ret → b.At (o + line.size) σ₁ rest) := by
  obtain ⟨before, hlines, ho⟩ := h.split
  obtain ⟨σ₂, ht⟩ := h.typed
  cases ht with
  | @cons _ σ₁ _ _ _ ha ht =>
    refine ⟨σ₁, ha, fun hne => ⟨⟨before ++ [line], ?_, ?_⟩, ⟨σ₂, ht⟩, ?_⟩⟩
    · rw [hlines, List.append_assoc]
      rfl
    · rw [extent_append, extent_cons, extent_nil, ho, Nat.add_zero, Nat.add_assoc]
    · have hl := h.last
      cases rest with
      | nil => exact absurd (Option.some.inj hl) hne
      | cons l ls => rwa [List.getLast?_cons_cons] at hl

theorem Allowed.of_mark {s : Setting} {shapeOf : Nat → List Content} {σ₁ : Shape}
    (h : Allowed s shapeOf σ line σ₁) (hm : ∀ i, line ≠ .instruction i) : σ₁ = ⟨σ.words, none⟩ := by
  cases h with
  | blank | label | entry => rfl
  | branch hb => cases hb <;> exact absurd rfl (hm _)
  | _ => exact absurd rfl (hm _)

theorem Body.At.instruction (h : b.At o σ rest) : ∃ i ls k,
    b.At o ⟨σ.words, k⟩ (.instruction i :: ls) ∧ (k = none ∨ k = σ.known) := by
  induction rest generalizing σ with
  | nil => cases h.last
  | cons line rest ih =>
    obtain ⟨σ₁, ha, hn⟩ := h.next
    have pass (hm : ∀ i, line ≠ .instruction i) (hz : line.size = 0) : ∃ i ls k,
        b.At o ⟨σ.words, k⟩ (.instruction i :: ls) ∧ (k = none ∨ k = σ.known) := by
      have hat := hn (hm _)
      rw [ha.of_mark hm, hz] at hat
      obtain ⟨i, ls, k, hi, hk⟩ := ih hat
      exact ⟨i, ls, k, hi, .inl (hk.elim id id)⟩
    cases line with
    | instruction i => exact ⟨i, rest, σ.known, h, .inr rfl⟩
    | blank => exact pass (by simp) rfl
    | label name => exact pass (by simp) rfl

/-- What comes after a line: the next one, or the lines after the label that it jumps to. From a jump to
the label of a truth value that is two lines further. -/
inductive Body.Leads (b : Body) (line : Line) (rest : Code) : Code → Prop
  | next : Leads b line rest rest
  | jump {before rest' : Code} {l : Label} : b.lines = before ++ Code.label l :: rest' →
      (∀ id, l ≠ .truth id) → Leads b line rest rest'
  | truth {r : Register} {id : Nat} {rest' : Code} :
      rest = Code.xor r r :: Code.label (.truth id) :: rest' →
      jumpTarget? line = some (Label.truth id).text → Leads b line rest rest'

theorem Body.Sound.after_label (hb : b.Sound I p) {l : Label} {i : Nat} (hl : l.id? = some i)
    {before : Code} (hlines : b.lines = before ++ Code.label l :: rest) : ∃ o,
    I.labels.get? l.text = some (UInt32.ofNat o) ∧ b.At o ⟨b.shapeOf i, none⟩ rest := by
  obtain ⟨σ₂, htyped⟩ := hb.closed.typed
  rw [hlines] at htyped
  obtain ⟨σ, _, hσ⟩ := htyped.split
  have hlast := hb.closed.last
  rw [hlines, List.getLast?_append, List.getLast?_cons, Option.some_or] at hlast
  have hat : b.At (b.start + extent before) σ (Code.label l :: rest) :=
    ⟨⟨before, hlines, rfl⟩, ⟨σ₂, hσ⟩, by rw [List.getLast?_cons, hlast]⟩
  obtain ⟨σ₁, ha, hn⟩ := hat.next
  have hrest := hn (by simp [Code.label, Code.ret])
  rw [(ha.of_label hl).2] at hrest
  exact ⟨_, (hat.placed hb).1, hrest⟩

/-- A jump leads to lines of the same body, and to the shape of its label. -/
theorem Body.At.jump (h : b.At o σ (line :: rest)) (hb : b.Sound I p) {l : Label} {i : Nat}
    (hl : l.id? = some i) (ht : jumpTarget? line = some l.text) : ∃ o' rest',
    I.labels.get? l.text = some (UInt32.ofNat o') ∧ b.At o' ⟨b.shapeOf i, none⟩ rest' ∧
      b.Leads line rest rest' := by
  by_cases htruth : ∃ id, l = .truth id
  · obtain ⟨id, rfl⟩ := htruth
    obtain ⟨before, hlines, _⟩ := h.split
    obtain ⟨r, rest', rfl⟩ := (hb.arranged before line rest hlines).truth id ht
    have hlabel : b.lines =
        (before ++ [line, Code.xor r r]) ++ Code.label (.truth id) :: rest' := by
      rw [hlines, List.append_assoc]
      rfl
    obtain ⟨o', hget, hat⟩ := hb.after_label hl hlabel
    exact ⟨o', rest', hget, hat, .truth rfl ht⟩
  · obtain ⟨before, rest', hlines⟩ := List.append_of_mem (hb.closed.targets line h.mem _ ht)
    obtain ⟨o', hget, hat⟩ := hb.after_label hl hlines
    exact ⟨o', rest', hget, hat, .jump hlines fun id he => htruth ⟨id, he⟩⟩

/-! ### Bodies of compiled programs -/

variable {fs : List Function} {codes : List Code} {labels : Labels} {program : List UInt8}

theorem Linked.section (h : Linked fs codes labels program) {lines : Code}
    (hm : lines ∈ builtinCodes ++ codes) : ∃ before after,
    bootstrap ++ (builtinCodes ++ codes).flatten ++ [Code.label .programEnd] =
      before ++ lines ++ after ∧ Placed labels program (extent before) lines := by
  obtain ⟨front, back, hcodes⟩ := List.append_of_mem hm
  have hsplit : bootstrap ++ (builtinCodes ++ codes).flatten ++ [Code.label .programEnd] =
      (bootstrap ++ front.flatten) ++ lines ++ (back.flatten ++ [Code.label .programEnd]) := by
    rw [hcodes]
    simp only [List.flatten_append, List.flatten_cons, List.append_assoc]
  refine ⟨_, _, hsplit, ?_⟩
  have hp := h.placed
  rw [hsplit] at hp
  have hp := hp.left.right
  rwa [Nat.zero_add] at hp

/-- The code of a defined function: that of a builtin one or of one of the program's own. -/
inductive CodeOf (fs : List Function) : Signature → Code → Prop
  | printchar : CodeOf fs .printchar printcharCode
  | readchar : CodeOf fs .readchar readcharCode
  | own {f n n₁ lines} : f ∈ fs → function f n = .ok (lines, n₁) → CodeOf fs f.signature lines

theorem Linked.own (h : Linked fs codes labels program) {f : Function} (hf : f ∈ fs) :
    ∃ lines ∈ builtinCodes ++ codes, ∃ n n₁, function f n = .ok (lines, n₁) := by
  obtain ⟨i, hi⟩ := List.getElem?_of_mem hf
  have hlt : i < codes.length := by
    rw [h.emits.length_eq]
    exact (List.getElem?_eq_some_iff.1 hi).1
  obtain ⟨n, n₁, hfun⟩ := h.emits.get hi (List.getElem?_eq_getElem hlt)
  exact ⟨codes[i], List.mem_append_right _ (List.getElem_mem hlt), n, n₁, hfun⟩

theorem Linked.codeOf (h : Linked fs codes labels program) {g : Signature} (hg : g ∈ defined fs) :
    ∃ lines ∈ builtinCodes ++ codes, CodeOf fs g lines := by
  rw [defined, List.mem_append, List.mem_map] at hg
  obtain hb | ⟨f, hf, rfl⟩ := hg
  · simp only [Signature.builtins, List.mem_cons, List.not_mem_nil, or_false] at hb
    obtain rfl | rfl := hb
    · exact ⟨_, List.mem_append_left _ (List.mem_cons_self ..), .printchar⟩
    · exact ⟨_, List.mem_append_left _ (List.mem_cons_of_mem _ (List.mem_cons_self ..)), .readchar⟩
  · obtain ⟨lines, hm, n, n₁, hfun⟩ := h.own hf
    exact ⟨lines, hm, .own hf hfun⟩

theorem CodeOf.entry {g : Signature} {lines : Code} (h : CodeOf fs g lines) {o : Nat}
    (hp : Placed labels program o lines) :
    labels.get? (Label.function g).text = some (UInt32.ofNat o) := by
  cases h with
  | printchar | readchar => exact hp.1
  | own _ hf =>
    obtain ⟨body, _, rfl⟩ := emitsFunction_of_function hf
    exact hp.1

def StandsAt (code : Code) (f : Function) (o : Nat) : Prop :=
  ∃ front lines back n n₁, code = front ++ lines ++ back ∧ function f n = .ok (lines, n₁) ∧
    extent front = o

/-- The code of a function whose assignments go to variables. It has no local variables but those of one
of the program's own. -/
theorem CodeOf.closed {g : Signature} {lines : Code} (h : CodeOf fs g lines)
    (hdirect : ∀ f ∈ fs, Direct (Stmt.allTargets f.body)) : ∃ s shapeOf,
    Closed s shapeOf lines ∧ s.safe ∧ s.arity = g.arity ∧ (s.locals = 0 ∨
      ∃ f ∈ fs, s.locals = f.locals.length ∧ ∃ n n₁, function f n = .ok (lines, n₁)) := by
  cases h with
  | printchar => exact ⟨_, _, closed_printchar True fun _ => [], trivial, rfl, .inl rfl⟩
  | readchar => exact ⟨_, _, closed_readchar True fun _ => [], trivial, rfl, .inl rfl⟩
  | @own f n n₁ _ hf hfun =>
    obtain ⟨shapeOf, hc⟩ := closed_of_emitsFunction
      (s := ⟨f.locals.length, f.parameters.length, True⟩) (emitsFunction_of_function hfun) rfl rfl
      fun _ => hdirect f hf
    exact ⟨_, shapeOf, hc, trivial, rfl, .inr ⟨f, hf, rfl, n, n₁, hfun⟩⟩

theorem CodeOf.arranged {g : Signature} {lines : Code} (h : CodeOf fs g lines) : Arranged lines := by
  cases h with
  | printchar | readchar => exact arranged_of_references rfl
  | own _ hf => exact arranged_of_emitsFunction (emitsFunction_of_function hf)

def Image.ofCodes (codes : List Code) (labels : Labels) (program : List UInt8) (size : Nat) : Image :=
  ⟨bootstrap ++ (builtinCodes ++ codes).flatten ++ [Code.label .programEnd], labels, program, size⟩

/-- An assembled program whose assignments go to variables is complete for all machines that have room
for the local variables of each function at its start. -/
theorem Linked.completeFor (h : Linked fs codes labels program) {size : Nat} {E : Machine → Prop}
    (hdirect : ∀ f ∈ fs, Direct (Stmt.allTargets f.body))
    (hroom : ∀ f ∈ fs, ∀ o, StandsAt (Image.ofCodes codes labels program size).code f o →
      ∀ m : Machine, E m → m.memory.size = size → m.At o → HasRoom m f.locals.length) :
    (Image.ofCodes codes labels program size).CompleteFor (· ∈ defined fs) E where
  placed := h.placed
  length := h.length
  code := ⟨_, rfl⟩
  main := main_defined_of_check h.check
  bodies g hg := by
    obtain ⟨lines, hm, hcode⟩ := h.codeOf hg
    obtain ⟨before, after, hsplit, hp⟩ := h.section hm
    obtain ⟨s, shapeOf, hc, hsafe, harity, hl⟩ := hcode.closed hdirect
    refine ⟨⟨extent before, lines, s, shapeOf⟩,
      ⟨hp, hc, hcode.arranged, h.ordinary lines hm, hsafe, before, after, hsplit, rfl⟩, harity,
      hcode.entry hp, ?_, lines, ⟨⟨[], rfl, rfl⟩, hc.typed, hc.last⟩⟩
    intro m hE hsize ha
    cases hl with
    | inl hzero =>
      rw [hzero]
      exact .inl (Nat.zero_le _)
    | inr hl =>
      obtain ⟨f, hf, hlocals, n, n₁, hfun⟩ := hl
      rw [hlocals]
      exact hroom f hf _ ⟨before, lines, after, n, n₁, hsplit, hfun, rfl⟩ m hE hsize ha

/-- Memories that leave room for the local variables of each function do so wherever the stack ends. -/
theorem Linked.complete (h : Linked fs codes labels program) {size : Nat}
    (hdirect : ∀ f ∈ fs, Direct (Stmt.allTargets f.body))
    (hroom : ∀ f ∈ fs, size + 4 * f.locals.length < 4294967296) :
    (Image.ofCodes codes labels program size).Complete (· ∈ defined fs) :=
  h.completeFor hdirect fun f hf _ _ _ _ hsize _ => .inr (hsize ▸ hroom f hf)

end WordMachine.Compiler
