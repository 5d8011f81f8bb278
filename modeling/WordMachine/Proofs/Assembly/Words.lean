import WordMachine.Proofs.Assembly.Reading
import WordMachine.Proofs.Occurrences

/-!
# The words of a line

A line is made of words with gaps between them and perhaps a comment behind them, and in only one way. So
its words are the runs of clean characters in the part before the first semicolon, each as long as it can
be, in the order of their places.
-/

namespace WordMachine.Assembly

/-- Characters that separate words, or none. -/
def Gap (cs : List Char) : Prop := ∀ c ∈ cs, isSeparator c = true

def Ended (cs : List Char) : Prop := ∀ c ∈ cs.head?, ¬Clean c

/-- A line with these words, before and between them gaps, and behind them a gap and perhaps a comment. -/
inductive Writes : List String → List Char → Prop
  | gap {gap} : Gap gap → Writes [] gap
  | comment {gap text} : Gap gap → Writes [] (gap ++ ';' :: text)
  | word {gap w ws rest} : Gap gap → CleanWord w → Ended rest → Writes ws rest →
      Writes (w :: ws) (gap ++ (w.toList ++ rest))

/-! ### Every line is written -/

section

variable {c : Char} {cs gap rest : List Char} {w : String} {ws : List String}

theorem clean_iff : Clean c ↔ isSeparator c = false ∧ c ≠ ';' := by
  simp [Clean, isSeparator, and_assoc, not_or]

theorem gap_nil : Gap [] := List.forall_mem_nil _

theorem gap_cons : Gap (c :: cs) ↔ isSeparator c = true ∧ Gap cs := List.forall_mem_cons

theorem ended_of_separator (hc : isSeparator c = true) : Ended (c :: cs) := by
  intro d hd hclean
  cases hd
  rw [hclean.not_separator] at hc
  cases hc

theorem ended_semicolon : Ended (';' :: cs) := by
  intro d hd
  cases hd
  decide

theorem Gap.ended (h : Gap gap) : Ended gap := by
  cases gap with
  | nil => exact fun c hc => by cases hc
  | cons c cs => exact ended_of_separator (gap_cons.1 h).1

theorem Writes.separator (h : Writes ws cs) (hc : isSeparator c = true) : Writes ws (c :: cs) := by
  cases h with
  | gap hgap => exact .gap (gap_cons.2 ⟨hc, hgap⟩)
  | comment hgap => exact .comment (gap_cons.2 ⟨hc, hgap⟩)
  | word hgap hw hrest h => exact .word (gap_cons.2 ⟨hc, hgap⟩) hw hrest h

theorem cleanWord_singleton (hc : Clean c) : CleanWord (String.ofList [c]) := by
  simpa [CleanWord] using hc

/-- A clean character before a word goes on with it to the left, and before anything else it is one. -/
theorem Writes.clean (h : Writes ws cs) (hc : Clean c) : ∃ ws, Writes ws (c :: cs) := by
  by_cases hended : Ended cs
  · have hone : Writes (String.ofList [c] :: ws) ([] ++ ((String.ofList [c]).toList ++ cs)) :=
      .word gap_nil (cleanWord_singleton hc) hended h
    exact ⟨_, by simpa using hone⟩
  · cases h with
    | gap hgap => exact absurd hgap.ended hended
    | @comment gap text hgap =>
      cases gap with
      | nil => exact absurd ended_semicolon hended
      | cons d gap => exact absurd (ended_of_separator (gap_cons.1 hgap).1) hended
    | @word gap w ws rest hgap hw hrest h =>
      cases gap with
      | cons d gap => exact absurd (ended_of_separator (gap_cons.1 hgap).1) hended
      | nil =>
        have hcw : CleanWord (String.ofList (c :: w.toList)) := by
          simpa [CleanWord, hc] using hw.2
        have hone : Writes (String.ofList (c :: w.toList) :: ws)
            ([] ++ ((String.ofList (c :: w.toList)).toList ++ rest)) :=
          .word gap_nil hcw hrest h
        exact ⟨_, by simpa using hone⟩

theorem exists_writes (line : List Char) : ∃ ws, Writes ws line := by
  induction line with
  | nil => exact ⟨[], .gap gap_nil⟩
  | cons c cs ih =>
    obtain ⟨ws, h⟩ := ih
    by_cases hc : isSeparator c = true
    · exact ⟨ws, h.separator hc⟩
    · by_cases hs : c = ';'
      · have hcomment : Writes [] ([] ++ ';' :: cs) := .comment gap_nil
        exact ⟨[], hs ▸ hcomment⟩
      · exact h.clean (clean_iff.2 ⟨by simpa using hc, hs⟩)

/-! ### The words that are read -/

theorem words_separator (hc : isSeparator c = true) : words (c :: cs) = words cs := by
  have hs : (c != ';') = true := by
    rw [bne_iff_ne]
    rintro rfl
    cases hc
  simp [words, hs, List.splitOnP_cons_eq_if_modifyHead, hc]

theorem words_gap (h : Gap gap) : words (gap ++ cs) = words cs := by
  induction gap with
  | nil => rfl
  | cons c gap ih =>
    obtain ⟨hc, hgap⟩ := gap_cons.1 h
    rw [List.cons_append, words_separator hc, ih hgap]

theorem words_semicolon : words (';' :: cs) = [] := by
  simp [words]

theorem words_word (hw : CleanWord w) (hrest : Ended rest) :
    words (w.toList ++ rest) = w :: words rest := by
  have hsemicolon : ∀ c ∈ w.toList, (c != ';') = true := fun c hc => (hw.2 c hc).not_semicolon
  have hseparator : ∀ c ∈ w.toList, isSeparator c = false := fun c hc => (hw.2 c hc).not_separator
  have hone : ([w.toList].filter (· ≠ [])).map String.ofList = [w] := by
    simp [hw.1]
  rw [words, List.takeWhile_append_of_pos hsemicolon]
  cases rest with
  | nil =>
    rw [List.takeWhile_nil, List.append_nil, List.splitOnP_eq_singleton hseparator]
    exact hone
  | cons c cs =>
    have hc : ¬(isSeparator c = false ∧ c ≠ ';') := fun h => hrest c rfl (clean_iff.2 h)
    by_cases hs : c = ';'
    · rw [hs, words_semicolon, List.takeWhile_cons_of_neg (by simp), List.append_nil,
        List.splitOnP_eq_singleton hseparator]
      exact hone
    · have hsep : isSeparator c = true := by simpa [hs] using hc
      rw [words_separator hsep, List.takeWhile_cons_of_pos (by simpa using hs),
        List.splitOnP_append_cons_of_forall_mem hseparator c hsep]
      simp [hw.1, words]

theorem Writes.words_eq {line : List Char} (h : Writes ws line) : words line = ws := by
  induction h with
  | @gap gap hgap =>
    have hnil : words (gap ++ []) = words [] := words_gap hgap
    rwa [List.append_nil] at hnil
  | comment hgap => rw [words_gap hgap, words_semicolon]
  | word hgap hw hrest _ ih => rw [words_gap hgap, words_word hw hrest, ih]

theorem writes_words (line : List Char) : Writes (words line) line := by
  obtain ⟨ws, h⟩ := exists_writes line
  rwa [h.words_eq]

theorem words_eq_iff {line : List Char} : words line = ws ↔ Writes ws line := by
  constructor
  · intro h
    rw [← h]
    exact writes_words line
  · exact Writes.words_eq

end

/-! ### Words as runs -/

section

variable {ws : List String} {cs line gap : List Char}

/-- The characters before the first semicolon. -/
def statementPart (line : List Char) : List Char := line.takeWhile (· ≠ ';')

theorem statementPart_append (h : ∀ c ∈ gap, c ≠ ';') :
    statementPart (gap ++ cs) = gap ++ statementPart cs :=
  List.takeWhile_append_of_pos (by simpa using h)

theorem Gap.ne_semicolon (h : Gap gap) : ∀ c ∈ gap, c ≠ ';' := by
  intro c hc he
  have hsep := h c hc
  rw [he] at hsep
  cases hsep

theorem not_clean_of_separator {c : Char} (hc : isSeparator c = true) : ¬Clean c := by
  intro h
  rw [h.not_separator] at hc
  cases hc

theorem listsAll_gap {runs : List (List Char)} (h : Gap gap) (hcs : ListsAll (RunAt Clean cs) runs) :
    ListsAll (RunAt Clean (gap ++ cs)) runs := by
  induction gap with
  | nil => exact hcs
  | cons c gap ih =>
    obtain ⟨hc, hgap⟩ := gap_cons.1 h
    have hnot := not_clean_of_separator hc
    exact (ih hgap).cons (l := []) (Nat.zero_le 1) (fun run => by simp [not_runAt_zero hnot])
      fun i run => runAt_cons hnot

theorem listsAll_word {w : String} {runs : List (List Char)} (hw : CleanWord w) (hcs : Ended cs)
    (h : ListsAll (RunAt Clean cs) runs) :
    ListsAll (RunAt Clean (w.toList ++ cs)) (w.toList :: runs) := by
  refine h.behind (l := [w.toList]) (List.length_pos_iff.2 hw.1) (Nat.le_refl 1) (fun i run hi => ?_)
    fun i run => runAt_append hcs
  rw [runAt_front hw.1 hw.2 hcs hi, List.mem_singleton]

theorem Ended.statementPart (h : Ended cs) : Ended (statementPart cs) := by
  cases cs with
  | nil => exact h
  | cons c cs =>
    by_cases hs : c = ';'
    · simp [Assembly.statementPart, hs, Ended]
    · rw [Assembly.statementPart, List.takeWhile_cons_of_pos (by simpa using hs)]
      exact h

theorem Writes.listsAll (h : Writes ws line) :
    ListsAll (RunAt Clean (statementPart line)) (ws.map String.toList) := by
  have hnone : ListsAll (RunAt Clean []) [] := .nil fun i run => not_runAt_nil
  induction h with
  | @gap gap hgap =>
    have hpart : statementPart (gap ++ []) = gap ++ statementPart [] :=
      statementPart_append hgap.ne_semicolon
    rw [List.append_nil] at hpart
    rw [hpart]
    exact listsAll_gap hgap hnone
  | @comment gap text hgap =>
    have hpart : statementPart (';' :: text) = [] := by simp [statementPart]
    rw [statementPart_append hgap.ne_semicolon, hpart]
    exact listsAll_gap hgap hnone
  | word hgap hw hrest _ ih =>
    have hsemicolon := fun c hc => bne_iff_ne.1 (hw.2 c hc).not_semicolon
    rw [statementPart_append hgap.ne_semicolon, statementPart_append hsemicolon]
    exact listsAll_gap hgap (listsAll_word hw hrest.statementPart ih)

/-- The words of a line are the longest runs of characters other than space, tab, carriage return and
semicolon in the part before the first semicolon. -/
theorem words_are_runs (h : '\n' ∉ line) : ListsAll
    (RunAt (fun c => c ∉ [' ', '\t', '\r', ';']) (statementPart line)) ((words line).map String.toList) := by
  refine (writes_words line).listsAll.congr fun i run => runAt_congr fun c hc => ?_
  have hline : c ∈ line := (List.takeWhile_sublist _).subset hc
  have hnewline : c ≠ '\n' := by
    rintro rfl
    exact h hline
  simp [Clean, hnewline]

end

end WordMachine.Assembly
