import WordMachine.Proofs.Assembly.Words

/-!
# Scanning a line

The words of a line are what a scanner reads that is put together from small ones: words after gaps, as
often as there are any, then a gap and perhaps a comment, and nothing behind it. A scanner reads from the
front of characters and leaves the rest, or fails. This one never fails.
-/

namespace WordMachine.Assembly

/-- What is read from the front of characters, and the rest of them, unless it fails. -/
def Scanner (α : Type) : Type := List Char → Option (α × List Char)

namespace Scanner

variable {α β : Type}

def span (p : Char → Bool) : Scanner (List Char) := fun cs => some (cs.takeWhile p, cs.dropWhile p)

/-- Reads as many characters of a kind as there are, but at least one. -/
def span1 (p : Char → Bool) : Scanner (List Char) := fun cs =>
  if cs.takeWhile p = [] then none else span p cs

def char (c : Char) : Scanner Char := fun
  | d :: cs => if d = c then some (c, cs) else none
  | [] => none

def rest : Scanner (List Char) := fun cs => some (cs, [])

def pair (p : Scanner α) (q : Scanner β) : Scanner (α × β) := fun cs =>
  (p cs).bind fun a => (q a.2).map fun b => ((a.1, b.1), b.2)

def preceded (p : Scanner α) (q : Scanner β) : Scanner β := fun cs =>
  (pair p q cs).map fun a => (a.1.2, a.2)

def terminated (p : Scanner α) (q : Scanner β) : Scanner α := fun cs =>
  (pair p q cs).map fun a => (a.1.1, a.2)

def opt (p : Scanner α) : Scanner (Option α) := fun cs =>
  match p cs with
  | some (a, rest) => some (some a, rest)
  | none => some (none, cs)

/-- Reads with a scanner until it fails. To read nothing again and again is a failure. -/
def many (p : Scanner α) (cs : List Char) : Option (List α × List Char) :=
  match p cs with
  | none => some ([], cs)
  | some (a, rest) =>
    if rest.length < cs.length then (many p rest).map fun as => (a :: as.1, as.2) else none
termination_by cs.length

def complete (p : Scanner α) : Scanner α := fun cs =>
  match p cs with
  | some (a, []) => some (a, [])
  | _ => none

def word : Scanner (List Char) :=
  preceded (span isSeparator) (span1 fun c => !isSeparator c && c != ';')

/-- A gap and perhaps a comment. -/
def lineEnd : Scanner (List Char × Option (List Char)) :=
  pair (span isSeparator) (opt (preceded (char ';') rest))

def statement : Scanner (List (List Char)) := complete (terminated (many word) lineEnd)

/-! ### A line as it is scanned -/

section

variable {gap cs line text : List Char} {w : String} {ws : List String}

theorem span_gap (h : Gap gap) (hcs : ∀ c ∈ cs.head?, isSeparator c = false) :
    span isSeparator (gap ++ cs) = some (gap, cs) := by
  rw [span, List.takeWhile_append_of_pos h, List.dropWhile_append_of_pos h]
  cases cs with
  | nil => simp
  | cons c cs => simp [hcs c rfl]

theorem span_only_gap (h : Gap gap) : span isSeparator gap = some (gap, []) := by
  have hspan : span isSeparator (gap ++ []) = some (gap, []) := span_gap h fun c hc => by cases hc
  rwa [List.append_nil] at hspan

theorem span_comment (h : Gap gap) : span isSeparator (gap ++ ';' :: text) = some (gap, ';' :: text) := by
  refine span_gap h fun c hc => ?_
  cases hc
  rfl

theorem clean_iff_isWordChar {c : Char} : Clean c ↔ (!isSeparator c && c != ';') = true := by
  rw [clean_iff]
  simp

theorem span1_word (hw : CleanWord w) (hcs : Ended cs) :
    span1 (fun c => !isSeparator c && c != ';') (w.toList ++ cs) = some (w.toList, cs) := by
  have hclean : ∀ c ∈ w.toList, (!isSeparator c && c != ';') = true := fun c hc =>
    clean_iff_isWordChar.1 (hw.2 c hc)
  rw [span1, span, List.takeWhile_append_of_pos hclean, List.dropWhile_append_of_pos hclean]
  cases cs with
  | nil => simp [hw.1]
  | cons c cs =>
    have hc : (!isSeparator c && c != ';') = false := by
      rw [← Bool.not_eq_true, ← clean_iff_isWordChar]
      exact hcs c rfl
    simp [hc, hw.1]

theorem word_gap (h : Gap gap) : word gap = none := by
  simp [word, preceded, pair, span_only_gap h, span1]

theorem word_comment (h : Gap gap) : word (gap ++ ';' :: text) = none := by
  simp [word, preceded, pair, span_comment h, span1]

theorem word_word (h : Gap gap) (hw : CleanWord w) (hcs : Ended cs) :
    word (gap ++ (w.toList ++ cs)) = some (w.toList, cs) := by
  have hspan : span isSeparator (gap ++ (w.toList ++ cs)) = some (gap, w.toList ++ cs) := by
    refine span_gap h fun c hc => ?_
    obtain ⟨d, ds, hds⟩ := List.exists_cons_of_ne_nil hw.1
    rw [hds] at hc
    cases hc
    exact (hw.2 c (hds ▸ List.mem_cons_self)).not_separator
  simp [word, preceded, pair, hspan, span1_word hw hcs]

theorem lineEnd_gap (h : Gap gap) : lineEnd gap = some ((gap, none), []) := by
  simp [lineEnd, pair, span_only_gap h, opt, preceded, char]

theorem lineEnd_comment (h : Gap gap) :
    lineEnd (gap ++ ';' :: text) = some ((gap, some text), []) := by
  simp [lineEnd, pair, span_comment h, opt, preceded, char, rest]

/-- All words are read one after another, and what is left is the end of a line. -/
theorem many_word (h : Writes ws line) : ∃ left,
    many word line = some (ws.map String.toList, left) ∧ ∃ e, lineEnd left = some (e, []) := by
  induction h with
  | @gap gap hgap =>
    refine ⟨gap, ?_, _, lineEnd_gap hgap⟩
    rw [many, word_gap hgap]
    rfl
  | @comment gap text hgap =>
    refine ⟨gap ++ ';' :: text, ?_, _, lineEnd_comment hgap⟩
    rw [many, word_comment hgap]
    rfl
  | @word gap w ws cs hgap hw hcs _ ih =>
    obtain ⟨left, hmany, hend⟩ := ih
    have hpos := List.length_pos_iff.2 hw.1
    have hlt : cs.length < (gap ++ (w.toList ++ cs)).length := by
      simp only [List.length_append]
      omega
    refine ⟨left, ?_, hend⟩
    rw [many, word_word hgap hw hcs]
    simp only [if_pos hlt, hmany, Option.map_some, List.map_cons]

/-- No line is refused, and its words are read. -/
theorem statement_eq (line : List Char) :
    statement line = some ((words line).map String.toList, []) := by
  obtain ⟨left, hmany, e, hend⟩ := many_word (writes_words line)
  simp [statement, complete, terminated, pair, hmany, hend]

end

end Scanner

end WordMachine.Assembly
