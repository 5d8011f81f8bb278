import Mathlib.Data.List.Forall2
import WordMachine.Proofs.Source.Places

/-!
# Writing names anew

In a text, names can be written anew where they stand: the gaps between the tokens and the lexemes of all
other tokens are kept as they are. Where the new names are identifiers, the tokens that are read are the
old ones with the new names in place. A word that begins where another one began ends the token before it
as the other one did.
-/

namespace WordMachine.Source

/-- A token stays, or it is a name and an identifier takes its place. -/
inductive TokenKind.Respells : TokenKind → TokenKind → Prop
  | same (k : TokenKind) : Respells k k
  | name (x : String) {y : String} : isIdentifier y = true → Respells (.name x) (.name y)

/-- The characters over which a cursor is moved to another one. -/
def Cursor.over (k k' : Cursor) : List Char := k.rest.take (k.rest.length - k'.rest.length)

/-- The characters from a lexer on, with tokens in the place of those that it reads. A token that stays
is written as it was. -/
def Lexer.respell (l : Lexer) : List TokenKind → List Char
  | [] => l.cursor.rest
  | k :: ks =>
    match l.read with
    | (.ok t, after) =>
      l.cursor.over l.cursor.skipGap ++
        ((if k = t.kind then l.cursor.skipGap.over after.cursor else k.text.toList) ++ after.respell ks)
    | (.error _, _) => l.cursor.rest

/-- A text with tokens in the place of those that are read. -/
def respell (text : String) (ks : List TokenKind) : String :=
  String.ofList ((Lexer.ofText text).respell ks)

/-! ### Gaps -/

section

variable {c d : Char} {cs ds gap lexeme rest rest' : List Char} {l l' : Location} {comment b : Bool}
  {k : TokenKind}

theorem Cursor.MovesTo.rest_eq {k k' : Cursor} (h : k.MovesTo k') : k.rest = k.over k' ++ k'.rest := by
  obtain ⟨passed, hrest, _⟩ := h
  have hover : k.over k' = passed := by simp [Cursor.over, hrest]
  rw [hover, hrest]

theorem rest_skipGapFrom (l l' : Location) (comment : Bool) (cs : List Char) :
    (Cursor.skipGapFrom l comment cs).rest = (Cursor.skipGapFrom l' comment cs).rest := by
  induction cs generalizing l l' comment with
  | nil => cases comment <;> rfl
  | cons c cs ih =>
    cases comment with
    | true => exact ih (l.after c) (l'.after c) _
    | false =>
      rw [Cursor.skipGapFrom, Cursor.skipGapFrom]
      split
      · exact ih _ _ _
      · split
        · exact ih _ _ _
        · rfl

/-- A gap is passed whatever comes after it, if no gap begins there. -/
theorem rest_skipGapFrom_gap (h : (Cursor.skipGapFrom l comment (gap ++ c :: cs)).rest = c :: cs)
    (hd : isSolid d = true) : (Cursor.skipGapFrom l' comment (gap ++ d :: ds)).rest = d :: ds := by
  induction gap generalizing l l' comment with
  | nil =>
    cases comment with
    | true =>
      have hlen := length_skipGapFrom_le (l.after c) (c != '\n') cs
      simp only [List.nil_append, Cursor.skipGapFrom] at h
      rw [h, List.length_cons] at hlen
      exact absurd hlen (Nat.not_succ_le_self _)
    | false => rw [List.nil_append, skipGapFrom_solid hd]
  | cons g gap ih =>
    simp only [List.cons_append] at h ⊢
    cases comment with
    | true => exact ih h
    | false =>
      rw [Cursor.skipGapFrom] at h ⊢
      split at h
      · next hg =>
        rw [if_pos hg]
        exact ih h
      · next hg =>
        rw [if_neg hg]
        split at h
        · next hb =>
          rw [if_pos hb]
          exact ih h
        · have hlen := congrArg List.length h
          simp only [List.length_cons, List.length_append] at hlen
          omega

/-! ### Lexemes -/

/-- Characters begin alike: with the same one, or both with the start of a word. -/
def Alike (rest rest' : List Char) : Prop :=
  rest'.head? = rest.head? ∨
    ∃ c cs d ds, rest = c :: cs ∧ rest' = d :: ds ∧ isWordStart c = true ∧ isWordStart d = true

theorem Alike.stops {p : Char → Bool} (h : Alike rest rest')
    (hp : ∀ c d, isWordStart c = true → isWordStart d = true → p c = p d) (hr : Stops p rest) :
    Stops p rest' := by
  rcases h with h | ⟨c, cs, d, ds, rfl, rfl, hc, hd⟩
  · rwa [Stops, h]
  · intro e he
    cases he
    rw [← hp c d hc hd]
    exact hr c rfl

theorem stops_dropWhile (p : Char → Bool) (cs : List Char) : Stops p (cs.dropWhile p) := by
  intro c hc
  have hhead := List.head?_dropWhile_not p cs
  rw [Option.mem_def.1 hc] at hhead
  simpa using hhead

/-- A run of characters ends before other ones as it does before those that follow it. -/
theorem takeWhile_alike {p : Char → Bool}
    (hp : ∀ c d, isWordStart c = true → isWordStart d = true → p c = p d)
    (h : Alike (cs.dropWhile p) rest') :
    (cs.takeWhile p ++ rest').takeWhile p = cs.takeWhile p ∧
      (cs.takeWhile p ++ rest').dropWhile p = rest' :=
  takeWhile_of_stops (List.all_eq_true.1 List.all_takeWhile) (h.stops hp (stops_dropWhile p cs))

theorem isDigit_congr (c d : Char) (hc : isWordStart c = true) (hd : isWordStart d = true) :
    c.isDigit = d.isDigit := by
  rw [not_isDigit_of_isWordStart hc, not_isDigit_of_isWordStart hd]

theorem isWordPart_congr (c d : Char) (hc : isWordStart c = true) (hd : isWordStart d = true) :
    isWordPart c = isWordPart d := by
  rw [isWordPart_of_isWordStart hc, isWordPart_of_isWordStart hd]

/-- A token is read from a lexeme, whatever comes after it that begins as these characters do. -/
def IsLexeme (b : Bool) (k : TokenKind) (lexeme rest : List Char) : Prop :=
  ∀ rest' l, Alike rest rest' → ∃ l', readKind b ⟨lexeme ++ rest', l⟩ = (.ok k, ⟨rest', l'⟩)

theorem isLexeme_number (hc : c.isDigit = true)
    (hk : numberToken ((c :: cs).takeWhile Char.isDigit) = .ok k) :
    IsLexeme b k (c :: cs.takeWhile Char.isDigit) (cs.dropWhile Char.isDigit) := by
  intro rest' l halike
  obtain ⟨htake, hdrop⟩ := takeWhile_alike isDigit_congr halike
  rw [List.takeWhile_cons_of_pos hc] at hk
  refine ⟨l.through (c :: cs.takeWhile Char.isDigit), ?_⟩
  simp only [List.cons_append, readKind, Cursor.peek, List.head?_cons, readToken, if_pos hc,
    Cursor.takeWhile, List.takeWhile_cons_of_pos hc, List.dropWhile_cons_of_pos hc, htake, hdrop, hk]

theorem isLexeme_word (hc : isWordStart c = true) :
    IsLexeme b (wordToken (String.ofList ((c :: cs).takeWhile isWordPart)))
      (c :: cs.takeWhile isWordPart) (cs.dropWhile isWordPart) := by
  intro rest' l halike
  obtain ⟨htake, hdrop⟩ := takeWhile_alike isWordPart_congr halike
  have hpart := isWordPart_of_isWordStart hc
  refine ⟨l.through (c :: cs.takeWhile isWordPart), ?_⟩
  simp only [List.cons_append, readKind, Cursor.peek, List.head?_cons, readToken, hc,
    not_isDigit_of_isWordStart hc, Bool.false_eq_true, if_false, if_true, Cursor.takeWhile,
    List.takeWhile_cons_of_pos hpart, List.dropWhile_cons_of_pos hpart, htake, hdrop]

theorem isLexeme_quoted (x : Char) (rest : List Char) :
    IsLexeme b (.int x.val) ['\x27', x, '\x27'] rest := by
  intro rest' l _
  exact ⟨_, rfl⟩

theorem isLexeme_assign (rest : List Char) : IsLexeme b .assign [':', '='] rest := by
  intro rest' l _
  exact ⟨_, rfl⟩

theorem symbolToken?_colon (b : Bool) : symbolToken? b ':' = none := by
  cases b <;> decide

theorem isLexeme_symbol (hw : isWordPart c = false) (hq : c ≠ '\x27') (hk : symbolToken? b c = some k)
    (rest : List Char) : IsLexeme b k [c] rest := by
  have hcolon : c ≠ ':' := by
    intro he
    rw [he, symbolToken?_colon] at hk
    cases hk
  intro rest' l _
  exact ⟨_, readToken_symbol hw hq hcolon hk⟩

theorem readQuoted_eq_ok {cursor after : Cursor} (h : readQuoted cursor = (.ok k, after)) :
    ∃ x, cursor.rest = x :: '\x27' :: after.rest ∧ k = .int x.val := by
  obtain ⟨_ | ⟨x, _ | ⟨q, cs⟩⟩, l⟩ := cursor
  · cases h
  · cases h
  · simp only [readQuoted, Cursor.next_cons] at h
    obtain ⟨hk, rfl⟩ := Prod.mk.inj h
    split at hk
    · next hq =>
      cases hk
      exact ⟨x, by rw [hq], rfl⟩
    · cases hk

theorem symbolToken?_ne_name (b : Bool) (c : Char) (x : String) : symbolToken? b c ≠ some (.name x) := by
  intro h
  unfold symbolToken? at h
  split at h
  iterate 4 cases h
  · cases b <;> cases h
  · simp [Option.or_eq_some_iff] at h

theorem numberToken_ne_name (digits : List Char) (x : String) : numberToken digits ≠ .ok (.name x) := by
  intro h
  simp only [numberToken] at h
  split at h
  · cases h
  · cases h

/-- The token at the front of a text is read from a lexeme. That of a name is a whole word. -/
theorem exists_lexeme {after : Cursor} (h : readKind b ⟨c :: cs, l⟩ = (.ok k, after)) :
    (∃ lexeme, c :: cs = c :: lexeme ++ after.rest ∧ IsLexeme b k (c :: lexeme) after.rest) ∧
      ∀ x, k = .name x → isWordStart c = true ∧ Stops isWordPart after.rest := by
  simp only [readKind, Cursor.peek, List.head?_cons] at h
  unfold readToken at h
  split at h
  · next hc =>
    obtain ⟨hk, rfl⟩ := Prod.mk.inj h
    have hrest : (c :: cs).dropWhile Char.isDigit = cs.dropWhile Char.isDigit :=
      List.dropWhile_cons_of_pos hc
    simp only [hrest]
    refine ⟨⟨cs.takeWhile Char.isDigit, by simp, isLexeme_number hc hk⟩, fun x he => ?_⟩
    exact absurd (he ▸ hk) (numberToken_ne_name _ x)
  · next hdigit =>
    split at h
    · next hc =>
      obtain ⟨hk, rfl⟩ := Prod.mk.inj h
      have hrest : (c :: cs).dropWhile isWordPart = cs.dropWhile isWordPart :=
        List.dropWhile_cons_of_pos (isWordPart_of_isWordStart hc)
      obtain rfl := Except.ok.inj hk
      simp only [hrest]
      exact ⟨⟨cs.takeWhile isWordPart, by simp, isLexeme_word hc⟩, fun x _ => ⟨hc, stops_dropWhile _ _⟩⟩
    · next hstart =>
      have hpart : isWordPart c = false := by
        simp only [isWordStart, isWordPart, Char.isAlphanum, Bool.or_eq_true, not_or,
          Bool.not_eq_true] at hdigit hstart ⊢
        simp [hdigit, hstart]
      dsimp only at h
      split at h
      · next hq =>
        subst hq
        obtain ⟨x, hcs, rfl⟩ := readQuoted_eq_ok h
        have hcs : cs = x :: '\x27' :: after.rest := hcs
        subst hcs
        exact ⟨⟨[x, '\x27'], rfl, isLexeme_quoted x after.rest⟩, fun y he => by cases he⟩
      · next hq =>
        split at h
        · next hassign =>
          obtain ⟨rfl, hpeek⟩ := hassign
          obtain ⟨cs, rfl⟩ := List.head?_eq_some_iff.1 hpeek
          cases h
          exact ⟨⟨['='], rfl, isLexeme_assign cs⟩, fun y he => by cases he⟩
        · split at h
          · next t ht =>
            cases h
            refine ⟨⟨[], rfl, isLexeme_symbol hpart hq ht cs⟩, fun y he => ?_⟩
            exact absurd (he ▸ ht) (symbolToken?_ne_name b c y)
          · cases h

theorem exists_isWordStart {y : String} (hy : isIdentifier y = true) :
    ∃ d ds, y.toList = d :: ds ∧ isWordStart d = true := by
  simp only [isIdentifier, isWordShaped, Bool.and_eq_true] at hy
  obtain ⟨hy, _⟩ := hy
  split at hy
  · cases hy
  · next d ds hds => exact ⟨d, ds, hds, (Bool.and_eq_true_iff.1 hy).1⟩

/-- An identifier is a lexeme wherever a name is. -/
theorem isLexeme_identifier {y : String} (hy : isIdentifier y = true) (hr : Stops isWordPart rest) :
    IsLexeme b (.name y) y.toList rest := by
  intro rest' l halike
  simp only [isIdentifier, Bool.and_eq_true, Option.isNone_iff_eq_none] at hy
  have hword : wordToken y = .name y := by rw [wordToken, hy.2]
  obtain ⟨d, ds, l', hds, _, hread⟩ :=
    @readToken_word b rest' l (halike.stops isWordPart_congr hr) y (.name y) hy.1 hword
  exact ⟨l', by rw [hds]; exact hread⟩

end

/-! ### Reading what is written anew -/

theorem TokenKind.Respells.endsOperand_eq {k k' : TokenKind} (h : k.Respells k') :
    k'.endsOperand = k.endsOperand := by
  cases h <;> rfl

theorem TokenKind.Respells.ne_endOfText {k k' : TokenKind} (h : k.Respells k') (hk : k ≠ .endOfText) :
    k' ≠ .endOfText := by
  cases h with
  | same => exact hk
  | name => simp

theorem rest_eq_nil_of_endOfText {b : Bool} {k after : Cursor} (h : readKind b k = (.ok .endOfText, after)) :
    k.rest = [] := by
  obtain ⟨_ | ⟨c, cs⟩, l⟩ := k
  · rfl
  · cases fits_readToken h

/-- The lexeme of a token that stays, or the text of the one in its place. -/
theorem exists_respelled {b : Bool} {start after : Cursor} {k k' : TokenKind}
    (h : readKind b start = (.ok k, after)) (hne : k ≠ .endOfText)
    (hsolid : ∀ c ∈ start.rest.head?, isSolid c = true) (hk : k.Respells k') :
    ∃ c cs d ds, start.rest = c :: cs ∧
      (if k' = k then start.over after else k'.text.toList) = d :: ds ∧
      (d = c ∨ isWordStart c = true ∧ isWordStart d = true) ∧ isSolid d = true ∧
      IsLexeme b k' (d :: ds) after.rest := by
  obtain ⟨_ | ⟨c, cs⟩, l⟩ := start
  · cases h
    exact absurd rfl hne
  · obtain ⟨⟨lexeme, hcs, hlexeme⟩, hname⟩ := exists_lexeme h
    have hover : Cursor.over ⟨c :: cs, l⟩ after = c :: lexeme := by
      simp only [Cursor.over, hcs, List.length_append, Nat.add_sub_cancel, List.take_left]
    have hc : isSolid c = true := hsolid c rfl
    cases hk with
    | same => exact ⟨c, cs, c, lexeme, rfl, by rw [if_pos rfl, hover], .inl rfl, hc, hlexeme⟩
    | @name x y hy =>
      by_cases hxy : TokenKind.name y = .name x
      · rw [hxy, if_pos rfl, hover]
        exact ⟨c, cs, c, lexeme, rfl, rfl, .inl rfl, hc, hlexeme⟩
      · obtain ⟨hstart, hstops⟩ := hname x rfl
        obtain ⟨d, ds, hds, hd⟩ := exists_isWordStart hy
        have hnew := isLexeme_identifier (b := b) hy hstops
        rw [hds] at hnew
        rw [if_neg hxy, TokenKind.text, hds]
        exact ⟨c, cs, d, ds, rfl, rfl, .inr ⟨hstart, hd⟩,
          isSolid_of_isWordPart (isWordPart_of_isWordStart hd), hnew⟩

section

variable {l l' : Lexer} {ks ks' : List TokenKind} {k : TokenKind}

theorem read_of_kinds?_nil (h : l.stream.kinds? = some []) :
    ∃ location after, l.read = (.ok ⟨.endOfText, location⟩, after) := by
  rw [stream_eq] at h
  split at h
  · cases h
  · next t after hr =>
    split at h
    · next ht => exact ⟨t.location, after, by rw [hr, ← ht]⟩
    · obtain ⟨ls, _, he⟩ := Option.map_eq_some_iff.1 h
      cases he

theorem read_of_kinds?_cons (h : l.stream.kinds? = some (k :: ks)) : ∃ location after,
    l.read = (.ok ⟨k, location⟩, after) ∧ k ≠ .endOfText ∧ after.stream.kinds? = some ks := by
  rw [stream_eq] at h
  split at h
  · cases h
  · next t after hr =>
    split at h
    · cases h
    · next ht =>
      obtain ⟨ls, hls, he⟩ := Option.map_eq_some_iff.1 h
      cases he
      exact ⟨t.location, after, hr, ht, hls⟩

theorem readKind_of_read {location : Location} {after : Lexer}
    (h : l.read = (.ok ⟨k, location⟩, after)) :
    readKind l.afterOperand l.cursor.skipGap = (.ok k, after.cursor) ∧
      after.afterOperand = k.endsOperand := by
  unfold Lexer.read at h
  dsimp only at h
  split at h
  · next kind cursor hk =>
    cases h
    exact ⟨hk, rfl⟩
  · cases h

/-- What is written in the place of the next token, behind the gap before it. -/
theorem exists_respell_cons {k' : TokenKind} {location : Location} {after : Lexer}
    (hr : l.read = (.ok ⟨k, location⟩, after)) (hne : k ≠ .endOfText) (hk : k.Respells k') :
    ∃ gap c cs d ds, l.cursor.rest = gap ++ c :: cs ∧ l.cursor.skipGap.rest = c :: cs ∧
      l.respell (k' :: ks') = gap ++ d :: (ds ++ after.respell ks') ∧
      (d = c ∨ isWordStart c = true ∧ isWordStart d = true) ∧ isSolid d = true ∧
      IsLexeme l.afterOperand k' (d :: ds) after.cursor.rest := by
  have hgap := (Cursor.movesTo_skipGapFrom l.cursor.location false l.cursor.rest).rest_eq
  obtain ⟨hread, _⟩ := readKind_of_read hr
  obtain ⟨c, cs, d, ds, hcs, hds, hdc, hd, hlexeme⟩ := exists_respelled hread hne
    (Cursor.isSolid_of_skipGapFrom _ _ _) hk
  refine ⟨l.cursor.over l.cursor.skipGap, c, cs, d, ds, ?_, hcs, ?_, hdc, hd, hlexeme⟩
  · rw [← hcs]
    exact hgap
  · simp only [Lexer.respell, hr, hds, List.cons_append]

theorem alike_respell (h : l.stream.kinds? = some ks) (hks : List.Forall₂ TokenKind.Respells ks ks') :
    Alike l.cursor.rest (l.respell ks') := by
  cases hks with
  | nil => exact .inl rfl
  | cons hk hks =>
    obtain ⟨location, after, hr, hne, _⟩ := read_of_kinds?_cons h
    obtain ⟨gap, c, cs, d, ds, hrest, _, hrespell, hdc, _, _⟩ := exists_respell_cons hr hne hk
    rw [hrest, hrespell]
    cases gap with
    | cons g gap => exact .inl rfl
    | nil =>
      rcases hdc with rfl | ⟨hc, hd⟩
      · exact .inl rfl
      · exact .inr ⟨c, cs, d, _, rfl, rfl, hc, hd⟩

theorem kinds?_respelled (h : l.stream.kinds? = some ks) (hks : List.Forall₂ TokenKind.Respells ks ks')
    (hrest : l'.cursor.rest = l.respell ks') (hafter : l'.afterOperand = l.afterOperand) :
    l'.stream.kinds? = some ks' := by
  induction hks generalizing l l' with
  | nil =>
    obtain ⟨location, after, hr⟩ := read_of_kinds?_nil h
    have hend : l'.cursor.skipGap.rest = [] := by
      rw [← rest_eq_nil_of_endOfText (readKind_of_read hr).1, Cursor.skipGap, Cursor.skipGap, hrest]
      exact rest_skipGapFrom _ _ _ _
    obtain ⟨end', hend'⟩ : ∃ end', l'.cursor.skipGap = ⟨[], end'⟩ := ⟨_, congrArg (Cursor.mk · _) hend⟩
    rw [stream_of_readKind (k := .endOfText) hend' rfl]
    rfl
  | @cons k k' ks ks' hk hks ih =>
    obtain ⟨location, after, hr, hne, hlater⟩ := read_of_kinds?_cons h
    obtain ⟨gap, c, cs, d, ds, hold, hskip, hrespell, _, hd, hlexeme⟩ := exists_respell_cons hr hne hk
    have hskip' : l'.cursor.skipGap.rest = d :: (ds ++ after.respell ks') := by
      rw [Cursor.skipGap, hrest, hrespell]
      rw [Cursor.skipGap, hold] at hskip
      exact rest_skipGapFrom_gap hskip hd
    obtain ⟨l'', hread⟩ := hlexeme (after.respell ks') l'.cursor.skipGap.location (alike_respell hlater hks)
    have hstart : l'.cursor.skipGap = ⟨d :: ds ++ after.respell ks', l'.cursor.skipGap.location⟩ :=
      congrArg (Cursor.mk · _) hskip'
    have hflag := (readKind_of_read hr).2
    rw [stream_of_readKind hstart (hafter ▸ hread), if_neg (hk.ne_endOfText hne), TokenStream.kinds?,
      ih hlater rfl (by rw [hk.endsOperand_eq, hflag])]
    rfl

end

/-- A text with new names is read as such. -/
theorem kinds?_respell {text : String} {ks ks' : List TokenKind}
    (h : (TokenStream.ofText text).kinds? = some ks) (hks : List.Forall₂ TokenKind.Respells ks ks') :
    (TokenStream.ofText (respell text ks')).kinds? = some ks' := by
  refine kinds?_respelled h hks ?_ rfl
  rw [respell, Lexer.ofText, Cursor.ofText, String.toList_ofList]

end WordMachine.Source
