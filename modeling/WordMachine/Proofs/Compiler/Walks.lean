import WordMachine.Proofs.Compiler.Arrangement
import WordMachine.Proofs.Machine.Dependence

/-!
# Ways through a function

The ways that control can take through the lines of a function, and which registers were written on them
since the last call. What the lines of a function read can be checked one line after another
(`readsFresh_of_reads`): at a label nothing is known of the registers, because control comes there on
several ways, except at the label of a truth value. The only jump to that one leads over one line, which
clears a register that was written before.
-/

namespace WordMachine

def Instruction.registers {V : Type} (i : Instruction V) : List Register :=
  i.operands.first?.toList ++ i.operands.second?.toList

namespace Compiler

open Assembly

/-! ### Ways -/

/-- The line is a call. -/
def IsCall (line : Line) : Prop := ∃ x : Instruction Value, line = .instruction x ∧ x.opcode = .call

/-- Where control may go from a line that stands at a place. From a call it goes on at the next line, when
the function that is called has returned. A jump leads to the declarations of its label, and a jump to a
number or to the word of a register may lead anywhere. An instruction that puts a word into the
instruction pointer by its name would be a jump too, but compiled programs have none (`Named`). -/
inductive Successor (code : Code) (i : Nat) : Line → Nat → Prop
  | mark {line} : (∀ x, line ≠ .instruction x) → Successor code i line (i + 1)
  | next {x} : x.opcode ≠ .jmp → x.opcode ≠ .jmpr → x.opcode ≠ .ret →
      Successor code i (.instruction x) (i + 1)
  | jump {x name j} : x.opcode ≠ .call → x.operands.target? = some (.label name) →
      code[j]? = some (.label name) → Successor code i (.instruction x) j
  | anywhere {x j} :
      x.opcode = .jmpr ∨ x.opcode ≠ .call ∧ (∃ n, x.operands.target? = some (.number n)) →
      Successor code i (.instruction x) j

/-- A way from the first line to the line at a place, with the lines passed before it. -/
inductive Walk (code : Code) : Code → Nat → Prop
  | entry : Walk code [] 0
  | step {passed i line j} : Walk code passed i → code[i]? = some line → Successor code i line j →
      Walk code (passed ++ [line]) j

/-- An instruction among the lines passed has written the register, and no line from it on is a call. -/
def Fresh (passed : Code) (r : Register) : Prop :=
  ∃ before x after, passed = before ++ .instruction x :: after ∧ r ∈ x.written ∧
    ∀ line ∈ .instruction x :: after, ¬IsCall line

/-- The last line passed is a call. -/
def JustCalled (passed : Code) : Prop := ∃ before line, passed = before ++ [line] ∧ IsCall line

/-- On every way through the lines, a register other than the stack pointer that an instruction reads was
written after the last call, or the instruction moves the result out just after a call. -/
def ReadsFresh (code : Code) : Prop :=
  ∀ passed i x, Walk code passed i → code[i]? = some (.instruction x) →
    ∀ r ∈ x.reads, r ≠ .stack → Fresh passed r ∨
      r = .result ∧ JustCalled passed ∧ ∃ out, Line.instruction x = Code.mov out .result

section

variable {passed code : Code} {line : Line} {r : Register} {x : Instruction Value}

theorem Fresh.concat (h : Fresh passed r) (hl : ¬IsCall line) : Fresh (passed ++ [line]) r := by
  obtain ⟨before, x, after, rfl, hr, hafter⟩ := h
  refine ⟨before, x, after ++ [line], by simp, hr, ?_⟩
  rw [← List.cons_append, List.forall_mem_append]
  exact ⟨hafter, by simpa using hl⟩

theorem fresh_concat (hr : r ∈ x.written) (hx : ¬IsCall (.instruction x)) :
    Fresh (passed ++ [.instruction x]) r :=
  ⟨passed, x, [], rfl, hr, by simpa using hx⟩

theorem not_isCall_of_target? (h : x.operands.target? = none) : ¬IsCall (.instruction x) := by
  rintro ⟨_, ⟨⟩, hx⟩
  rcases x with ⟨o, y⟩
  cases hx
  cases y
  cases h

theorem not_isCall_of_jumpTarget? {name : String} (h : jumpTarget? line = some name) :
    ¬IsCall line := by
  rintro ⟨⟨o, y⟩, rfl, hx⟩
  cases hx
  cases h

/-- A jump to a label reads and names no register. -/
structure Jumps (x : Instruction Value) (name : String) : Prop where
  target : x.operands.target? = some (.label name)
  direct : x.opcode ≠ .jmpr
  reads : x.reads = []
  registers : x.registers = []

theorem jumps_of_jumpTarget? {name : String} (h : jumpTarget? (.instruction x) = some name) :
    Jumps x name := by
  rcases x with ⟨o, y⟩
  cases o <;> try cases h
  all_goals
    cases y with
    | label v =>
      cases v with
      | number n => cases h
      | label s =>
        cases h
        exact ⟨rfl, by simp, rfl, rfl⟩

/-! ### What is known of registers -/

/-- What is known before a line: which registers have been written since the last call, and whether a
call has just returned. -/
structure Facts where
  fresh : List Register
  returned : Bool

def Facts.nothing : Facts := ⟨[], false⟩

structure Facts.Hold (k : Facts) (passed : Code) : Prop where
  fresh : ∀ r ∈ k.fresh, r ≠ .stack → Fresh passed r
  returned : k.returned = true → JustCalled passed

structure Facts.Among (k k' : Facts) : Prop where
  fresh : ∀ r ∈ k.fresh, r ∈ k'.fresh
  returned : k.returned = true → k'.returned = true

/-- A register that compiled programs use. -/
def Usable (r : Register) : Prop := r.index.toNat ≤ 250 ∨ r = .stack

instance (r : Register) : Decidable (Usable r) :=
  inferInstanceAs (Decidable (r.index.toNat ≤ 250 ∨ r = .stack))

/-- A line that reads registers that are known to be fresh, with what is known before and after it. -/
inductive Admitted : Facts → Line → Facts → Prop
  | blank {rs b} : Admitted ⟨rs, b⟩ .blank ⟨rs, false⟩
  | label {k name} : Admitted k (.label name) .nothing
  | truth {rs b id} : Admitted ⟨rs, b⟩ (Code.label (.truth id)) ⟨rs, false⟩
  | call {k l} : Admitted k (Code.call l) ⟨[], true⟩
  | take {rs r} : Usable r → Admitted ⟨rs, true⟩ (Code.mov r .result) ⟨[r], false⟩
  | jump {rs b line name} : jumpTarget? line = some name → Admitted ⟨rs, b⟩ line ⟨rs, false⟩
  | plain {rs rs' b x} : x.operands.target? = none → x.opcode ≠ .jmpr →
      (∀ r ∈ x.registers, Usable r) → (∀ r ∈ x.reads, r ≠ .stack → r ∈ rs) →
      (∀ r ∈ rs', r ∈ x.written ∨ r ∈ rs) → Admitted ⟨rs, b⟩ (.instruction x) ⟨rs', false⟩

/-- Lines that are admitted one after another, from facts that are known before them to others. -/
inductive Reads : Facts → Code → Facts → Prop
  | nil {k} : Reads k [] k
  | forget {k k' k₁ code} : k'.Among k → Reads k' code k₁ → Reads k code k₁
  | cons {k k₁ k₂ line code} : Admitted k line k₁ → Reads k₁ code k₂ → Reads k (line :: code) k₂

variable {k k' k₁ k₂ : Facts} {a b : Code}

theorem Facts.Among.refl (k : Facts) : k.Among k := ⟨fun _ h => h, id⟩

theorem Facts.Among.trans {k₃ : Facts} (h : k.Among k') (h' : k'.Among k₃) : k.Among k₃ :=
  ⟨fun r hr => h'.fresh r (h.fresh r hr), fun hb => h'.returned (h.returned hb)⟩

theorem Facts.hold_nothing (passed : Code) : Facts.nothing.Hold passed :=
  ⟨by simp [nothing], by simp [nothing]⟩

theorem Facts.Hold.mono (h : k.Hold passed) (hk : k'.Among k) : k'.Hold passed :=
  ⟨fun r hr => h.fresh r (hk.fresh r hr), fun hb => h.returned (hk.returned hb)⟩

theorem Reads.append (ha : Reads k a k₁) (hb : Reads k₁ b k₂) : Reads k (a ++ b) k₂ := by
  induction ha with
  | nil => exact hb
  | forget hk _ ih => exact .forget hk (ih hb)
  | cons hl _ ih => exact .cons hl (ih hb)

/-! ### Soundness -/

/-- The registers that are fresh stay so at a line that is no call. -/
theorem Facts.Hold.concat {rs : List Register} {b : Bool} (h : Facts.Hold ⟨rs, b⟩ passed)
    (hl : ¬IsCall line) : Facts.Hold ⟨rs, false⟩ (passed ++ [line]) :=
  ⟨fun r hr hs => (h.fresh r hr hs).concat hl, by simp⟩

theorem Admitted.hold (h : Admitted k line k') (hk : k.Hold passed) : k'.Hold (passed ++ [line]) := by
  cases h with
  | blank | truth =>
    refine hk.concat ?_
    rintro ⟨_, ⟨⟩, _⟩
  | label => exact Facts.hold_nothing _
  | call => exact ⟨by simp, fun _ => ⟨passed, _, rfl, _, rfl, rfl⟩⟩
  | take =>
    refine ⟨fun r hr _ => fresh_concat ?_ (not_isCall_of_target? rfl), by simp⟩
    simpa [Instruction.written, Operands.first?] using hr
  | jump hj => exact hk.concat (not_isCall_of_jumpTarget? hj)
  | plain ht _ _ _ hrs =>
    have hc := not_isCall_of_target? ht
    refine ⟨fun r hr hs => ?_, by simp⟩
    obtain hw | ho := hrs r hr
    · exact fresh_concat hw hc
    · exact (hk.fresh r ho hs).concat hc

theorem Admitted.reads (h : Admitted k (.instruction x) k') (hk : k.Hold passed) (hr : r ∈ x.reads)
    (hs : r ≠ .stack) : Fresh passed r ∨
      r = .result ∧ JustCalled passed ∧ ∃ out, Line.instruction x = Code.mov out .result := by
  generalize hline : Line.instruction x = line at h
  cases h with
  | blank | label | truth => cases hline
  | call =>
    cases hline
    simp [Instruction.reads] at hr
    exact absurd hr hs
  | @take _ out =>
    cases hline
    have hres : r = .result := by simpa [Instruction.reads, Operands.second?, eq_comm] using hr
    exact .inr ⟨hres, hk.returned rfl, out, rfl⟩
  | jump hj =>
    subst hline
    rw [(jumps_of_jumpTarget? hj).reads] at hr
    cases hr
  | plain _ _ _ hreads =>
    cases hline
    exact .inl (hk.fresh r (hreads r hr hs) hs)

/-- An instruction that goes to labels other than the next line does so by the jumps of emitted code. -/
theorem Admitted.target (h : Admitted k (.instruction x) k') (hc : x.opcode ≠ .call) :
    x.opcode ≠ .jmpr ∧ ∀ t, x.operands.target? = some t →
      ∃ name, t = .label name ∧ jumpTarget? (.instruction x) = some name := by
  generalize hline : Line.instruction x = line at h
  cases h with
  | blank | label | truth => cases hline
  | call =>
    cases hline
    exact absurd rfl hc
  | take =>
    cases hline
    exact ⟨by simp, fun t ht => by cases ht⟩
  | jump hj =>
    subst hline
    refine ⟨(jumps_of_jumpTarget? hj).direct, fun t ht => ?_⟩
    rw [(jumps_of_jumpTarget? hj).target] at ht
    exact ⟨_, (Option.some.inj ht).symm, hj⟩
  | plain ht hj =>
    cases hline
    refine ⟨hj, fun t htarget => ?_⟩
    rw [ht] at htarget
    cases htarget

theorem Admitted.hold_of_clear (h : Admitted k (Code.xor r r) k') (hk : k.Hold passed) :
    k'.Hold passed := by
  generalize hline : Code.xor r r = line at h
  cases h with
  | blank | label | truth | call | take => cases hline
  | jump hj =>
    subst hline
    cases hj
  | plain _ _ _ hreads hrs =>
    cases hline
    refine ⟨fun q hq hs => ?_, by simp⟩
    obtain hw | ho := hrs q hq
    · have hqr : q = r := by simpa [Instruction.written, Operands.first?] using hw
      subst hqr
      exact hk.fresh q (hreads q (by simp [Instruction.reads, Operands.first?]) hs) hs
    · exact hk.fresh q ho hs

/-- These facts can be known before the lines, one line after another. -/
def KnownBefore (code : Code) (facts : Nat → Facts) : Prop :=
  ∀ i line, code[i]? = some line → ∃ k, Admitted (facts i) line k ∧ (facts (i + 1)).Among k

theorem Reads.facts (h : Reads k code k₁) :
    ∃ facts : Nat → Facts, (facts 0).Among k ∧ KnownBefore code facts := by
  induction h with
  | @nil k => exact ⟨fun _ => k, .refl k, fun i line hi => by simp at hi⟩
  | forget hk _ ih =>
    obtain ⟨facts, h0, hs⟩ := ih
    exact ⟨facts, h0.trans hk, hs⟩
  | @cons k k₁ k₂ line code hl _ ih =>
    obtain ⟨facts, h0, hs⟩ := ih
    refine ⟨fun i => i.casesOn k facts, .refl k, fun i l hi => ?_⟩
    cases i with
    | zero =>
      cases hi
      exact ⟨k₁, hl, h0⟩
    | succ i => exact hs i l hi

/-- Lines with different labels declare a label at one place. -/
theorem eq_of_declared {name : String} {i j : Nat} (hn : (declarations code).Nodup)
    (hi : code[i]? = some (.label name)) (hj : code[j]? = some (.label name)) : i = j := by
  induction code generalizing i j with
  | nil => cases hi
  | cons line code ih =>
    have htail : (declarations code).Nodup :=
      hn.sublist ((List.sublist_cons_self line code).filterMap _)
    have hhead : line = .label name → ∀ {i : Nat}, code[i]? ≠ some (.label name) := by
      rintro rfl i h
      exact (List.nodup_cons.1 hn).1 (mem_declarations_iff.2 (List.mem_of_getElem? h))
    cases i with
    | zero =>
      cases j with
      | zero => rfl
      | succ j => exact absurd hj (hhead (Option.some.inj hi))
    | succ i =>
      cases j with
      | zero => exact absurd hi (hhead (Option.some.inj hj))
      | succ j => rw [ih htail hi hj]

/-- A jump to the label of a truth value leads over one line, which clears a register. -/
theorem Arranged.clears {i id : Nat} (ha : Arranged code) (hi : code[i]? = some line)
    (hj : jumpTarget? line = some (Label.truth id).text) :
    ∃ r, code[i + 1]? = some (Code.xor r r) ∧ code[i + 2]? = some (.label (Label.truth id).text) := by
  obtain ⟨before, after, rfl, rfl⟩ := exists_append_of_getElem? hi
  obtain ⟨r, rest, rfl⟩ := (ha before line after rfl).truth id hj
  refine ⟨r, ?_, ?_⟩
  · rw [List.getElem?_append_right (Nat.le_add_right ..), Nat.add_sub_cancel_left]
    rfl
  · rw [List.getElem?_append_right (Nat.le_add_right ..), Nat.add_sub_cancel_left]
    rfl

/-- Control comes to the place of a label of no truth value, at which nothing is known. -/
def Unknown (code : Code) (i : Nat) : Prop :=
  ∃ name, code[i]? = some (.label name) ∧ ∀ id, name ≠ (Label.truth id).text

theorem Unknown.hold {i : Nat} (h : Unknown code i) (hi : code[i]? = some line)
    (hl : Admitted k line k') : k'.Hold passed := by
  obtain ⟨name, hname, hne⟩ := h
  rw [hname] at hi
  cases hi
  generalize hline : Line.label name = line at hl
  cases hl with
  | label => exact Facts.hold_nothing _
  | @truth _ _ id => exact absurd (Line.label.inj hline) (hne id)
  | jump hj =>
    subst hline
    cases hj
  | _ => cases hline

/-- What is known before a line is true of the lines passed on any way to it. -/
theorem hold_of_walk {facts : Nat → Facts} {i : Nat} (hs : KnownBefore code facts)
    (h0 : (facts 0).Among .nothing) (ha : Arranged code) (hn : (declarations code).Nodup)
    (hw : Walk code passed i) : Unknown code i ∨ (facts i).Hold passed := by
  induction hw with
  | entry => exact .inr ((Facts.hold_nothing []).mono h0)
  | @step passed i line j _ hi hj ih =>
    obtain ⟨k, hl, hk⟩ := hs i line hi
    have hafter : (facts (i + 1)).Hold (passed ++ [line]) := by
      refine Facts.Hold.mono ?_ hk
      cases ih with
      | inl hu => exact hu.hold hi hl
      | inr hh => exact hl.hold hh
    cases hj with
    | mark | next => exact .inr hafter
    | @jump x name j hc ht hlabel =>
      obtain ⟨_, hname, hjump⟩ := (hl.target hc).2 _ ht
      cases hname
      by_cases htruth : ∃ id, name = (Label.truth id).text
      · -- the label stands just behind the line that clears the register
        obtain ⟨id, rfl⟩ := htruth
        obtain ⟨r, hclear, hplace⟩ := ha.clears hi hjump
        rw [eq_of_declared hn hlabel hplace]
        obtain ⟨k', hl', hk'⟩ := hs _ _ hclear
        exact .inr ((hl'.hold_of_clear hafter).mono hk')
      · exact .inl ⟨name, hlabel, fun id hid => htruth ⟨id, hid⟩⟩
    | @anywhere x j hx =>
      obtain hjmpr | ⟨hc, n, hn⟩ := hx
      · have hc : x.opcode ≠ .call := by simp [hjmpr]
        exact absurd hjmpr (hl.target hc).1
      · obtain ⟨_, hname, _⟩ := (hl.target hc).2 _ hn
        cases hname

/-- The lines of a function read what was written since the last call, if they are admitted one after
another and each label is declared once. -/
theorem readsFresh_of_reads (h : Reads .nothing code k) (ha : Arranged code)
    (hn : (declarations code).Nodup) : ReadsFresh code := by
  intro passed i x hw hi r hr hs
  obtain ⟨facts, h0, hsteps⟩ := h.facts
  obtain ⟨k', hl, _⟩ := hsteps i _ hi
  cases hold_of_walk hsteps h0 ha hn hw with
  | inl hu =>
    obtain ⟨name, hname, _⟩ := hu
    rw [hi] at hname
    cases hname
  | inr hh => exact hl.reads hh hr hs

end

end Compiler

end WordMachine
