import Mathlib.Data.List.Induction
import WordMachine.Proofs.Assembly.Acceptance
import WordMachine.Proofs.Assembly.TwoPasses

/-!
# Histories of passes

One table can serve any number of passes, over different texts, some of which fail. Whatever the history,
a label that is recorded stays at its offset, and a pass adds the labels of the lines before the first
that it refuses. Which line that is, and for which reason, is said of the table at the start of the pass
and the lines before alone.
-/

namespace WordMachine.Assembly

/-! ### Lines that are refused -/

/-- A label has an offset in a table, or one that lines declare. -/
def Recorded (t : Labels) (ls : List Line) (name : String) (v : Word) : Prop :=
  t.get? name = some v ∨ ∃ o, DeclaredAt ls name o ∧ UInt32.ofNat o = v

/-- Why a line is refused, given the table at the start of the pass and the lines before it. -/
inductive Line.Refused (last : Bool) (t : Labels) (before : List Line) : Line → LineError → Prop
  | beyond {name} : 4294967296 ≤ extent before →
      Refused last t before (.label name) .invalidLabelDeclaration
  | redeclared {name v} : extent before < 4294967296 → Recorded t before name v →
      v.toNat ≠ extent before → Refused last t before (.label name) (.labelRedeclared name)
  | undeclared {i name} : last = true → i.operands.value? = some (.label name) →
      (∀ v, ¬Recorded t before name v) → Refused last t before (.instruction i) (.undeclaredLabel name)

/-- A table has the labels of another one and those that lines declare. -/
def Labels.Adds (t : Labels) (ls : List Line) (u : Labels) : Prop :=
  ∀ name v, u.get? name = some v ↔ Recorded t ls name v

section

variable {last : Bool} {t u w : Labels} {before : List Line} {l : Line} {name : String} {v : Word}
  {e : LineError} {bytes : List UInt8}

theorem recorded_concat : Recorded t (before ++ [l]) name v ↔
    Recorded t before name v ∨ l = .label name ∧ UInt32.ofNat (extent before) = v := by
  simp only [Recorded, declaredAt_concat, or_assoc]
  refine or_congr_right ?_
  constructor
  · rintro ⟨o, hd | ⟨hl, rfl⟩, hv⟩
    · exact .inl ⟨o, hd, hv⟩
    · exact .inr ⟨hl, hv⟩
  · rintro (⟨o, hd, hv⟩ | ⟨hl, hv⟩)
    · exact ⟨o, .inl hd, hv⟩
    · exact ⟨_, .inr ⟨hl, rfl⟩, hv⟩

theorem Labels.adds_nil (t : Labels) : t.Adds [] t := by
  intro name v
  simp [Recorded, not_declaredAt_nil]

theorem Labels.Adds.concat (hu : t.Adds before u) (hl : l.declared? = none) :
    t.Adds (before ++ [l]) u := by
  intro name v
  have hne : l ≠ .label name := by
    rintro rfl
    cases hl
  simp [hu name v, recorded_concat, hne]

theorem refused_of_insert_error {old : Word} (hu : t.Adds before u) (ho : extent before < 4294967296)
    (h : u.insert name (UInt32.ofNat (extent before)) = .error old) :
    (Line.label name).Refused last t before (.labelRedeclared name) := by
  obtain ⟨hg, hne⟩ := Labels.insert_eq_error_iff.1 h
  exact .redeclared ho ((hu _ _).1 hg) (mt (toNat_eq_iff ho).1 hne)

theorem not_refused_of_insert_ok (hu : t.Adds before u) (ho : extent before < 4294967296)
    (h : u.insert name (UInt32.ofNat (extent before)) = .ok w) :
    ¬(Line.label name).Refused last t before e := by
  intro hr
  cases hr with
  | beyond hle => exact absurd ho (Nat.not_lt.2 hle)
  | redeclared _ hv hne =>
    have herr := Labels.insert_eq_error_iff.2 ⟨(hu _ _).2 hv, mt (toNat_eq_iff ho).2 hne⟩
    rw [h] at herr
    cases herr

theorem Labels.Adds.insert (hu : t.Adds before u)
    (h : u.insert name (UInt32.ofNat (extent before)) = .ok w) :
    t.Adds (before ++ [.label name]) w := by
  intro other v
  rw [Labels.get?_of_insert h, recorded_concat, ← hu other v]
  by_cases he : other = name
  · subst he
    rw [if_pos rfl]
    refine ⟨fun hv => .inr ⟨rfl, Option.some.inj hv⟩, ?_⟩
    rintro (hg | ⟨_, rfl⟩)
    · by_cases hv : v = UInt32.ofNat (extent before)
      · rw [hv]
      · rw [Labels.insert_eq_error_iff.2 ⟨hg, hv⟩] at h
        cases h
    · rfl
  · have hne : ¬(Line.label name = .label other ∧ UInt32.ofNat (extent before) = v) := by
      rintro ⟨⟨⟩, _⟩
      exact he rfl
    rw [if_neg he, or_iff_left hne]

/-- A value has a word unless it is a label that is not recorded, on the last pass. -/
theorem resolve_cases (last : Bool) (hu : t.Adds before u) (x : Value) :
    (∃ word, Value.resolve last u x = .ok word) ∨ ∃ name, x = .label name ∧ last = true ∧
      (∀ v, ¬Recorded t before name v) ∧ Value.resolve last u x = .error (.undeclaredLabel name) := by
  cases x with
  | number n => exact .inl ⟨_, rfl⟩
  | label name =>
    cases hg : u.get? name with
    | some o => exact .inl ⟨o, by simp only [Value.resolve, hg]⟩
    | none =>
      cases last with
      | false => exact .inl ⟨0, by simp [Value.resolve, hg]⟩
      | true =>
        refine .inr ⟨name, rfl, rfl, fun v hv => ?_, by simp [Value.resolve, hg]⟩
        rw [(hu _ _).2 hv] at hg
        cases hg

/-- An instruction has a word for its value, or it is refused. -/
theorem traverse_cases (last : Bool) (hu : t.Adds before u) (i : Instruction Value) :
    (∃ j, i.traverse (Value.resolve last u) = .ok j ∧
      ∀ e, ¬(Line.instruction i).Refused last t before e) ∨
    ∃ e, i.traverse (Value.resolve last u) = .error e ∧ (Line.instruction i).Refused last t before e := by
  cases hx : i.operands.value? with
  | none =>
    have hok := Instruction.traverse_of_ok (f := Value.resolve last u) (g := fun _ => 0) (i := i)
      fun v hv => by rw [hx] at hv; cases hv
    refine .inl ⟨_, hok, fun e hr => ?_⟩
    cases hr with
    | undeclared _ hname =>
      rw [hx] at hname
      cases hname
  | some x =>
    rcases resolve_cases last hu x with ⟨word, hword⟩ | ⟨name, rfl, hlast, hn, herr⟩
    · have hok := Instruction.traverse_of_ok (f := Value.resolve last u) (g := fun _ => word) (i := i)
        fun v hv => by rw [hx] at hv; cases hv; exact hword
      refine .inl ⟨_, hok, fun e hr => ?_⟩
      cases hr with
      | @undeclared _ name hlast hname hn =>
        rw [hx, Option.some.injEq] at hname
        subst hname hlast
        cases hg : u.get? name with
        | some v => exact hn v ((hu _ _).1 hg)
        | none => simp [Value.resolve, hg] at hword
    · exact .inr ⟨_, Instruction.traverse_of_error hx herr, .undeclared hlast hx hn⟩

/-- A line that cannot be read is no declaration. -/
theorem read_ne_labelRedeclared (line : List Char) (name : String) :
    Line.read line ≠ .error (.labelRedeclared name) := by
  intro h
  have hwords : wordsAssemble true .empty 0 (words line) = .error (.labelRedeclared name) := by
    rw [← wordsAssemble_words, h]
    rfl
  have hr := refuses_of_error (by decide) hwords
  generalize hws : words line = ws at hr
  cases hr with
  | redeclared _ hg => cases hg
  | operand _ hfirst =>
    obtain ⟨_, _, _, _, _, hblames, _⟩ := hfirst
    cases hblames

/-- A line is accepted and adds its label to the table, or it is refused. -/
theorem assemble_cases (last : Bool) (hu : t.Adds before u) (l : Line) :
    (∃ bytes w, Line.assemble last (extent before) u l = .ok (bytes, w) ∧ bytes.length = l.size ∧
      t.Adds (before ++ [l]) w ∧ ∀ e, ¬l.Refused last t before e) ∨
    ∃ e, Line.assemble last (extent before) u l = .error e ∧ l.Refused last t before e := by
  cases l with
  | blank => exact .inl ⟨[], u, rfl, rfl, hu.concat rfl, fun e hr => by cases hr⟩
  | label name =>
    by_cases ho : extent before < 4294967296
    · cases h : u.insert name (UInt32.ofNat (extent before)) with
      | ok w =>
        exact .inl ⟨[], w, assemble_label ho h, rfl, hu.insert h,
          fun e => not_refused_of_insert_ok hu ho h⟩
      | error old => exact .inr ⟨_, by rw [Line.assemble, if_pos ho, h], refused_of_insert_error hu ho h⟩
    · exact .inr ⟨_, by rw [Line.assemble, if_neg ho], .beyond (Nat.le_of_not_lt ho)⟩
  | instruction i =>
    rcases traverse_cases last hu i with ⟨j, hj, hfree⟩ | ⟨e, he, href⟩
    · refine .inl ⟨j.encode, u, by rw [Line.assemble, hj]; rfl, ?_, hu.concat rfl, hfree⟩
      rw [Instruction.length_encode, Instruction.size_of_traverse hj]
      rfl
    · exact .inr ⟨e, by rw [Line.assemble, he]; rfl, href⟩

end

/-! ### Passes -/

/-- A line of text is refused if it cannot be read or says what is refused. -/
def RefusedText (last : Bool) (t : Labels) (before : List Line) (line : List Char) (e : LineError) : Prop :=
  Line.read line = .error e ∨ ∃ l, Line.read line = .ok l ∧ l.Refused last t before e

/-- A pass goes through lines of text, of which it refuses none, and leaves a table. -/
structure Passed (last : Bool) (t : Labels) (texts : List (List Char)) (ls : List Line) (u : Labels) :
    Prop where
  reads : Reads texts ls
  accepted : ∀ (i : Nat) l, ls[i]? = some l → ∀ e, ¬l.Refused last t (ls.take i) e
  adds : t.Adds ls u
  pass_eq : ∃ bytes, bytes.length = extent ls ∧ passFrom last 1 0 t texts = (.ok bytes, u)

section

variable {last : Bool} {number o i : Nat} {t u w : Labels} {xs ys texts : List (List Char)}
  {line : List Char} {bytes : List UInt8} {e : LineError} {ls : List Line} {name : String}

theorem map_append_nil (r : Except Error (List UInt8)) : r.map ([] ++ ·) = r := by
  cases r <;> rfl

theorem map_append_append (xs ys : List UInt8) (r : Except Error (List UInt8)) :
    (r.map (ys ++ ·)).map (xs ++ ·) = r.map ((xs ++ ys) ++ ·) := by
  cases r with
  | error e => rfl
  | ok zs => exact congrArg Except.ok (List.append_assoc xs ys zs).symm

/-- A pass goes on behind lines as a pass from there on. -/
theorem passFrom_append_ok (h : passFrom last number o t xs = (.ok bytes, u)) :
    passFrom last number o t (xs ++ ys) =
      ((passFrom last (number + xs.length) (o + bytes.length) u ys).1.map (bytes ++ ·),
        (passFrom last (number + xs.length) (o + bytes.length) u ys).2) := by
  induction xs generalizing number o t bytes with
  | nil =>
    cases h
    exact Prod.ext (map_append_nil _).symm rfl
  | cons x xs ih =>
    rw [passFrom] at h
    rw [List.cons_append, passFrom]
    split at h
    · cases h
    · next first labels _ =>
      dsimp only at h ⊢
      cases hp : passFrom last (number + 1) (o + first.length) labels xs with
      | mk result after =>
        rw [hp] at h
        cases result with
        | error e => cases h
        | ok rest =>
          cases h
          have hnumber : number + 1 + xs.length = number + (x :: xs).length := by
            rw [List.length_cons]
            omega
          rw [ih hp, map_append_append, hnumber, List.length_append, Nat.add_assoc o]

theorem passFrom_append_error {err : Error} (h : passFrom last number o t xs = (.error err, u)) :
    passFrom last number o t (xs ++ ys) = (.error err, u) := by
  induction xs generalizing number o t with
  | nil => cases h
  | cons x xs ih =>
    rw [passFrom] at h
    rw [List.cons_append, passFrom]
    split at h
    · exact h
    · next first labels _ =>
      dsimp only at h ⊢
      cases hp : passFrom last (number + 1) (o + first.length) labels xs with
      | mk result after =>
        rw [hp] at h
        cases result with
        | ok rest => cases h
        | error e =>
          cases h
          rw [ih hp]
          rfl

theorem passFrom_singleton_ok {l : Line} (hr : Line.read line = .ok l)
    (ha : Line.assemble last o u l = .ok (bytes, w)) :
    passFrom last number o u [line] = (.ok bytes, w) := by
  rw [passFrom_cons_ok hr ha, passFrom]
  exact Prod.ext (congrArg Except.ok (List.append_nil bytes)) rfl

theorem passed_nil (last : Bool) (t : Labels) : Passed last t [] [] t where
  reads := rfl
  accepted := by simp
  adds := t.adds_nil
  pass_eq := ⟨[], rfl, rfl⟩

theorem Passed.concat {l : Line} (h : Passed last t xs ls u) (hr : Line.read line = .ok l)
    (ha : Line.assemble last (extent ls) u l = .ok (bytes, w)) (hlen : bytes.length = l.size)
    (hadds : t.Adds (ls ++ [l]) w) (hl : ∀ e, ¬l.Refused last t ls e) :
    Passed last t (xs ++ [line]) (ls ++ [l]) w where
  reads := by
    rw [Reads, List.map_append, List.map_append, h.reads, List.map_singleton, hr]
    rfl
  accepted := by
    intro i k hk
    rcases Nat.lt_trichotomy i ls.length with hi | rfl | hi
    · rw [List.getElem?_append_left hi] at hk
      rw [List.take_append_of_le_length (Nat.le_of_lt hi)]
      exact h.accepted i k hk
    · rw [List.getElem?_concat_length, Option.some.injEq] at hk
      rw [List.take_left, ← hk]
      exact hl
    · rw [List.getElem?_eq_none (by rw [List.length_append]; exact hi)] at hk
      cases hk
  adds := hadds
  pass_eq := by
    obtain ⟨passed, hpassed, hp⟩ := h.pass_eq
    refine ⟨passed ++ bytes, ?_, ?_⟩
    · rw [List.length_append, hpassed, hlen, extent_concat]
    · rw [passFrom_append_ok hp, hpassed, Nat.zero_add, passFrom_singleton_ok hr ha]
      rfl

/-- A pass goes through all lines, or stops at the first that is refused, with the table that it has
until then. -/
theorem pass_cases (last : Bool) (t : Labels) (texts : List (List Char)) :
    (∃ ls u, Passed last t texts ls u) ∨
    ∃ i line e ls u, texts[i]? = some line ∧ Passed last t (texts.take i) ls u ∧
      RefusedText last t ls line e ∧ passFrom last 1 0 t texts = (.error ⟨i + 1, e⟩, u) := by
  induction texts using List.reverseRecOn with
  | nil => exact .inl ⟨[], t, passed_nil last t⟩
  | append_singleton texts line ih =>
    rcases ih with ⟨ls, u, h⟩ | ⟨i, stop, e, ls, u, hi, h, hstop, hp⟩
    · -- the line comes after lines that are all accepted, so it is the first that can be refused
      have hget : (texts ++ [line])[texts.length]? = some line := List.getElem?_concat_length
      have htake : (texts ++ [line]).take texts.length = texts := List.take_left
      obtain ⟨bytes, hlen, hp⟩ := h.pass_eq
      have herror : ∀ {e}, (Line.read line >>= Line.assemble last (extent ls) u) = .error e →
          passFrom last 1 0 t (texts ++ [line]) = (.error ⟨texts.length + 1, e⟩, u) := by
        intro e he
        rw [passFrom_append_ok hp, hlen, Nat.zero_add, passFrom_cons_error he, Nat.add_comm 1]
        rfl
      cases hr : Line.read line with
      | error e =>
        exact .inr ⟨_, line, e, ls, u, hget, htake.symm ▸ h, .inl hr, herror (by rw [hr]; rfl)⟩
      | ok l =>
        rcases assemble_cases last h.adds l with ⟨bytes, w, ha, hl, hadds, hfree⟩ | ⟨e, ha, href⟩
        · exact .inl ⟨_, w, h.concat hr ha hl hadds hfree⟩
        · exact .inr ⟨_, line, e, ls, u, hget, htake.symm ▸ h, .inr ⟨l, hr, href⟩,
            herror (by rw [hr]; exact ha)⟩
    · have hlt : i < texts.length := (List.getElem?_eq_some_iff.1 hi).1
      refine .inr ⟨i, stop, e, ls, u, ?_, ?_, hstop, passFrom_append_error hp⟩
      · rw [List.getElem?_append_left hlt, hi]
      · rwa [List.take_append_of_le_length (Nat.le_of_lt hlt)]

theorem Passed.lt (h : Passed last t texts ls u) {o : Nat} (hd : DeclaredAt ls name o) :
    o < 4294967296 := by
  obtain ⟨i, hi, rfl⟩ := hd
  exact Nat.lt_of_not_le fun hle => h.accepted i _ hi _ (.beyond hle)

theorem Passed.get?_declared (h : Passed last t texts ls u) {o : Nat} (hd : DeclaredAt ls name o) :
    u.get? name = some (UInt32.ofNat o) :=
  (h.adds _ _).2 (.inr ⟨o, hd, rfl⟩)

theorem Passed.get?_other (h : Passed last t texts ls u) (hn : name ∉ declarations ls) :
    u.get? name = t.get? name := by
  refine Option.ext fun v => (h.adds name v).trans (or_iff_left ?_)
  rintro ⟨o, hd, _⟩
  exact hn (mem_declarations_iff_declaredAt.2 ⟨o, hd⟩)

/-! ### Passes over what is recorded -/

theorem assemble_known {l : Line} (hl : ∀ name, l = .label name → u.get? name = some (UInt32.ofNat o))
    (h : Line.assemble last o u l = .ok (bytes, w)) : bytes.length = l.size ∧ w = u := by
  cases l with
  | blank =>
    cases h
    exact ⟨rfl, rfl⟩
  | label name =>
    have hinsert : u.insert name (UInt32.ofNat o) = .ok u := by
      rw [Labels.insert, hl name rfl]
      exact if_pos rfl
    rw [Line.assemble, hinsert] at h
    split at h <;> cases h
    exact ⟨rfl, rfl⟩
  | instruction i =>
    cases hj : i.traverse (Value.resolve last u) with
    | error e => simp [Line.assemble, hj, Except.map] at h
    | ok j =>
      simp only [Line.assemble, hj, Except.map, Except.ok.injEq, Prod.mk.injEq] at h
      obtain ⟨rfl, rfl⟩ := h
      exact ⟨by rw [Instruction.length_encode, Instruction.size_of_traverse hj]; rfl, rfl⟩

/-- A pass over lines whose labels are all recorded at their offsets leaves the table as it is. -/
theorem passFrom_known {before : List Line} (hr : Reads texts ls)
    (h : ∀ name o, DeclaredAt (before ++ ls) name o → u.get? name = some (UInt32.ofNat o)) :
    (passFrom last number (extent before) u texts).2 = u := by
  induction texts generalizing number before ls with
  | nil => rfl
  | cons line texts ih =>
    obtain ⟨l, rest, rfl, hl, hrest⟩ := hr.cons_inv
    cases ha : Line.assemble last (extent before) u l with
    | error e => rw [passFrom_cons_error (by rw [hl]; exact ha)]
    | ok result =>
      obtain ⟨bytes, w⟩ := result
      have hknown : ∀ name, l = .label name → u.get? name = some (UInt32.ofNat (extent before)) := by
        rintro name rfl
        exact h _ _ (declaredAt_append.2 (.inr ⟨0, declaredAt_cons.2 (.inl ⟨rfl, rfl⟩), rfl⟩))
      obtain ⟨hlen, rfl⟩ := assemble_known hknown ha
      rw [passFrom_cons_ok hl ha, hlen, ← extent_concat]
      exact ih hrest (by simpa using h)

end

/-! ### Histories -/

/-- The lines that a pass goes through: all, or those before the one that it reports. -/
def passedLines (last : Bool) (t : Labels) (text : String) : List (List Char) :=
  match (pass last t text).1 with
  | .ok _ => lines text
  | .error e => (lines text).take (e.line - 1)

/-- The table that passes leave one after another. A pass is the last one over its program or not. -/
def Labels.through (t : Labels) : List (Bool × String) → Labels
  | [] => t
  | (last, text) :: later => Labels.through (pass last t text).2 later

/-- A pass goes through a line that declares a label at an offset. -/
def Declares (last : Bool) (t : Labels) (text : String) (name : String) (v : Word) : Prop :=
  ∃ ls, Reads (passedLines last t text) ls ∧ DeclaredAt ls name v.toNat

/-- A line of text declares a label at an offset, while another offset is recorded: in the table at the
start of the pass, or by a line before. -/
def Redeclares (t : Labels) (texts : List (List Char)) (i : Nat) (name : String) (o : Nat) : Prop :=
  ∃ line ls v, texts[i]? = some line ∧ Line.read line = .ok (.label name) ∧ Reads (texts.take i) ls ∧
    extent ls = o ∧ Recorded t ls name v ∧ v.toNat ≠ o

/-- The first line that declares a label at another offset than is recorded. -/
def FirstRedeclares (t : Labels) (texts : List (List Char)) (i : Nat) (name : String) (o : Nat) : Prop :=
  Redeclares t texts i name o ∧ ∀ j < i, ∀ other o', ¬Redeclares t texts j other o'

section

variable {last : Bool} {t u : Labels} {text name : String} {v : Word} {i o : Nat} {e : LineError}
  {texts : List (List Char)} {ls : List Line}

/-- What a pass goes through is accepted, and the line that it reports is refused. -/
theorem exists_passed (last : Bool) (t : Labels) (text : String) :
    ∃ ls, Passed last t (passedLines last t text) ls (pass last t text).2 ∧
      ∀ e, (pass last t text).1 = .error e → ∃ i line, e.line = i + 1 ∧ (lines text)[i]? = some line ∧
        passedLines last t text = (lines text).take i ∧ RefusedText last t ls line e.cause := by
  rcases pass_cases last t (lines text) with ⟨ls, u, h⟩ | ⟨i, line, e, ls, u, hi, h, hstop, hp⟩
  · obtain ⟨bytes, _, hp⟩ := h.pass_eq
    have hpass : pass last t text = (.ok bytes, u) := hp
    rw [passedLines, hpass]
    exact ⟨ls, h, fun e he => by cases he⟩
  · have hpass : pass last t text = (.error ⟨i + 1, e⟩, u) := hp
    rw [passedLines, hpass]
    refine ⟨ls, h, fun e' he => ?_⟩
    cases he
    exact ⟨i, line, rfl, hi, rfl, hstop⟩

theorem get?_pass : (pass last t text).2.get? name = some v ↔
    t.get? name = some v ∨ Declares last t text name v := by
  obtain ⟨ls, h, _⟩ := exists_passed last t text
  rw [h.adds, Recorded]
  refine or_congr_right ?_
  constructor
  · rintro ⟨o, hd, rfl⟩
    exact ⟨ls, h.reads, by rwa [UInt32.toNat_ofNat_of_lt' (h.lt hd)]⟩
  · rintro ⟨ks, hks, hd⟩
    rw [hks.unique h.reads] at hd
    exact ⟨_, hd, UInt32.ofNat_toNat⟩

theorem through_append (t : Labels) (history later : List (Bool × String)) :
    t.through (history ++ later) = (t.through history).through later := by
  induction history generalizing t with
  | nil => rfl
  | cons p history ih => exact ih _

/-- What is recorded after a history was recorded before it, or declared by one of its passes. -/
theorem get?_through {history : List (Bool × String)} : (t.through history).get? name = some v ↔
    t.get? name = some v ∨ ∃ earlier last text later, history = earlier ++ (last, text) :: later ∧
      Declares last (t.through earlier) text name v := by
  induction history generalizing t with
  | nil => simp [Labels.through]
  | cons p history ih =>
    obtain ⟨last, text⟩ := p
    rw [Labels.through, ih, get?_pass, or_assoc]
    refine or_congr_right ?_
    constructor
    · rintro (hd | ⟨earlier, last', text', later, rfl, hd⟩)
      · exact ⟨[], last, text, history, rfl, hd⟩
      · exact ⟨(last, text) :: earlier, last', text', later, rfl, hd⟩
    · rintro ⟨_ | ⟨p, earlier⟩, last', text', later, he, hd⟩
      · cases he
        exact .inl hd
      · cases he
        exact .inr ⟨earlier, last', text', later, rfl, hd⟩

/-- Lines that a pass goes through declare no label at another offset than is recorded. -/
theorem Passed.not_redeclares (h : Passed last t (texts.take i) ls u) {j : Nat} (hj : j < i)
    (other : String) (o : Nat) : ¬Redeclares t texts j other o := by
  rintro ⟨line, ks, v, hget, hread, hks, rfl, hv, hne⟩
  obtain ⟨l, hl, hline⟩ := h.reads.get? ((List.getElem?_take_of_lt hj).trans hget)
  rw [hread] at hline
  cases hline
  have htake : Reads (texts.take j) (ls.take j) := by
    have htake := h.reads.take j
    rwa [List.take_take, Nat.min_eq_left (Nat.le_of_lt hj)] at htake
  obtain rfl := hks.unique htake
  have hfree := h.accepted j _ hl
  by_cases ho : extent (ls.take j) < 4294967296
  · exact hfree _ (.redeclared ho hv hne)
  · exact hfree _ (.beyond (Nat.le_of_not_lt ho))

/-- The line at which a label is found redeclared is the first one that does so. -/
theorem firstRedeclares_of_refused {line : List Char} (h : Passed last t (texts.take i) ls u)
    (hi : texts[i]? = some line) (hstop : RefusedText last t ls line (.labelRedeclared name)) :
    ∃ o, FirstRedeclares t texts i name o := by
  refine ⟨extent ls, ?_, fun j hj => h.not_redeclares hj⟩
  rcases hstop with hread | ⟨l, hread, hl⟩
  · exact absurd hread (read_ne_labelRedeclared line name)
  · cases hl with
    | redeclared _ hv hne => exact ⟨line, ls, _, hi, hread, h.reads, rfl, hv, hne⟩

/-- Where a line redeclares a label and none before does, a pass reports it, or has stopped until then for
another reason. -/
theorem stops_of_firstRedeclares (last : Bool) (h : FirstRedeclares t (lines text) i name o) :
    (pass last t text).1 = .error ⟨i + 1, .labelRedeclared name⟩ ∨
    ∃ j e, (pass last t text).1 = .error ⟨j + 1, e⟩ ∧ (∀ other, e ≠ .labelRedeclared other) ∧
      (j < i ∨ j = i ∧ 4294967296 ≤ o) := by
  obtain ⟨hredeclares, hfirst⟩ := h
  have hlt : i < (lines text).length := by
    obtain ⟨_, _, _, hget, _⟩ := hredeclares
    exact (List.getElem?_eq_some_iff.1 hget).1
  rcases pass_cases last t (lines text) with ⟨ls, u, h⟩ | ⟨j, line, e, ls, u, hj, h, hstop, hp⟩
  · rw [← List.take_length (l := lines text)] at h
    exact absurd hredeclares (h.not_redeclares hlt name o)
  · have hpass : (pass last t text).1 = .error ⟨j + 1, e⟩ := congrArg Prod.fst hp
    rcases Nat.lt_trichotomy j i with hji | rfl | hij
    · refine .inr ⟨j, e, hpass, ?_, .inl hji⟩
      rintro other rfl
      obtain ⟨o', hother, _⟩ := firstRedeclares_of_refused h hj hstop
      exact hfirst j hji other o' hother
    · -- the line declares the label, so only its offset can be a reason that comes before
      obtain ⟨line', ks, v, hget, hread, hks, rfl, hv, hne⟩ := hredeclares
      rw [hj] at hget
      cases hget
      obtain rfl := hks.unique h.reads
      rcases hstop with hbad | ⟨l, hl, href⟩
      · rw [hread] at hbad
        cases hbad
      · rw [hread] at hl
        cases hl
        cases href with
        | beyond hle => exact .inr ⟨j, _, hpass, by simp, .inr ⟨rfl, hle⟩⟩
        | redeclared => exact .inl hpass
    · exact absurd hredeclares (h.not_redeclares hij name o)

/-- Over any history a table only grows. A label that is recorded keeps its offset, and it was recorded
before or is declared by a pass of the history. The next pass adds the labels of the lines before the
first that it refuses, each at the size of the lines before it, and no others. It reports a label as
redeclared at the first line that declares one at another offset than is recorded, unless it stops
earlier for another reason, and leaves the table as it was before that line. A pass right after one over
the same text that succeeded leaves the table as it is. -/
theorem table_only_grows (start : Labels) (history : List (Bool × String)) (t : Labels)
    (ht : start.through history = t) :
    (∀ later name v, t.get? name = some v → (start.through (history ++ later)).get? name = some v) ∧
    (∀ name v, t.get? name = some v ↔ start.get? name = some v ∨
      ∃ earlier last text later, history = earlier ++ (last, text) :: later ∧
        Declares last (start.through earlier) text name v) ∧
    ∀ last text,
      (∃ ls, Reads (passedLines last t text) ls ∧
        (∀ (i : Nat) l, ls[i]? = some l → ∀ e, ¬l.Refused last t (ls.take i) e) ∧
        (∀ e, (pass last t text).1 = .error e → ∃ i line, e.line = i + 1 ∧
          (lines text)[i]? = some line ∧ passedLines last t text = (lines text).take i ∧
          RefusedText last t ls line e.cause) ∧
        (∀ name o, DeclaredAt ls name o →
          o < 4294967296 ∧ (pass last t text).2.get? name = some (UInt32.ofNat o)) ∧
        ∀ name, name ∉ declarations ls → (pass last t text).2.get? name = t.get? name) ∧
      (∀ i name, (pass last t text).1 = .error ⟨i + 1, .labelRedeclared name⟩ →
        (∃ o, FirstRedeclares t (lines text) i name o) ∧
        ∃ bytes, passFrom last 1 0 t ((lines text).take i) = (.ok bytes, (pass last t text).2)) ∧
      (∀ i name o, FirstRedeclares t (lines text) i name o →
        (pass last t text).1 = .error ⟨i + 1, .labelRedeclared name⟩ ∨
        ∃ j e, (pass last t text).1 = .error ⟨j + 1, e⟩ ∧ (∀ other, e ≠ .labelRedeclared other) ∧
          (j < i ∨ j = i ∧ 4294967296 ≤ o)) ∧
      ∀ bytes, (pass last t text).1 = .ok bytes → ∀ again,
        (pass again (pass last t text).2 text).2 = (pass last t text).2 := by
  subst ht
  refine ⟨fun later name v hv => ?_, fun name v => get?_through, fun last text => ?_⟩
  · rw [through_append]
    exact get?_through.2 (.inl hv)
  obtain ⟨ls, h, hstop⟩ := exists_passed last (start.through history) text
  refine ⟨⟨ls, h.reads, h.accepted, hstop, fun name o hd => ⟨h.lt hd, h.get?_declared hd⟩,
    fun name => h.get?_other⟩, fun i name he => ?_,
    fun i name o hfirst => stops_of_firstRedeclares last hfirst, fun bytes hok again => ?_⟩
  · obtain ⟨j, line, hj, hget, htake, href⟩ := hstop _ he
    obtain rfl : i = j := Nat.succ.inj hj
    rw [htake] at h
    obtain ⟨bytes, _, hp⟩ := h.pass_eq
    exact ⟨firstRedeclares_of_refused h hget href, bytes, hp⟩
  · have hread : Reads (lines text) ls := by
      have hread := h.reads
      rwa [passedLines, hok] at hread
    have hknown : ∀ name o, DeclaredAt ([] ++ ls) name o →
        (pass last (start.through history) text).2.get? name = some (UInt32.ofNat o) :=
      fun name o hd => h.get?_declared hd
    exact passFrom_known hread hknown

/-- A label of an earlier text stands elsewhere in a later one. -/
theorem table_only_grows_other_text :
    Labels.empty.through [(false, "@a\nnop\n@b\nfrob\n@c\n")] = ⟨[("@b", 1), ("@a", 0)]⟩ ∧
    FirstRedeclares ⟨[("@b", 1), ("@a", 0)]⟩ (lines "@d\nnop\nnop\n@b\n") 3 "@b" 2 ∧
    (∃ bytes, passFrom true 1 0 ⟨[("@b", 1), ("@a", 0)]⟩ ((lines "@d\nnop\nnop\n@b\n").take 3) =
      (.ok bytes, (pass true ⟨[("@b", 1), ("@a", 0)]⟩ "@d\nnop\nnop\n@b\n").2)) ∧
    (pass true ⟨[("@b", 1), ("@a", 0)]⟩ "@d\nnop\nnop\n@b\n").2 =
      ⟨[("@d", 0), ("@b", 1), ("@a", 0)]⟩ := by
  have ht : Labels.empty.through [(false, "@a\nnop\n@b\nfrob\n@c\n")] = ⟨[("@b", 1), ("@a", 0)]⟩ := rfl
  have herror : (pass true ⟨[("@b", 1), ("@a", 0)]⟩ "@d\nnop\nnop\n@b\n").1 =
      .error ⟨4, .labelRedeclared "@b"⟩ := rfl
  obtain ⟨_, _, hnext⟩ := table_only_grows _ _ _ ht
  obtain ⟨_, hreport, _⟩ := hnext true "@d\nnop\nnop\n@b\n"
  obtain ⟨⟨o, hfirst⟩, hbefore⟩ := hreport 3 "@b" herror
  obtain ⟨line, ls, v, hget, hread, hls, rfl, hv, hne⟩ := hfirst.1
  have hlines : Reads ((lines "@d\nnop\nnop\n@b\n").take 3)
      [.label "@d", .instruction ⟨.nop, .none⟩, .instruction ⟨.nop, .none⟩] := rfl
  have ho : extent ls = 2 := by
    rw [hls.unique hlines]
    rfl
  rw [ho] at hfirst
  exact ⟨ht, hfirst, hbefore, rfl⟩

end

end WordMachine.Assembly
