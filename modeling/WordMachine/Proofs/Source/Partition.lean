import WordMachine.Proofs.Source.Respelling

/-!
# Texts as gaps and lexemes

A text is divided into gaps and lexemes in one way. Gaps are blank characters and comments, and numbers
and words are as long as they can be. Reading gives the tokens of the lexemes, each at the place of its
first character, and ends at the end of the text or at the first place behind a gap where no lexeme
begins.
-/

namespace WordMachine.Source

/-! ### Locations -/

/-- The location behind characters: its line is counted in line feeds, and its column in characters
behind the last of them. -/
def Location.behind (passed : List Char) : Location :=
  ⟨passed.count '\n' + 1, (passed.reverse.takeWhile (· ≠ '\n')).length + 1⟩

theorem behind_concat (passed : List Char) (c : Char) :
    Location.behind (passed ++ [c]) = (Location.behind passed).after c := by
  by_cases hc : c = '\n'
  · simp [Location.behind, Location.after, hc]
  · simp [Location.behind, Location.after, hc]

theorem behind_append (before passed : List Char) :
    Location.behind (before ++ passed) = (Location.behind before).through passed := by
  induction passed generalizing before with
  | nil => rw [List.append_nil, Location.through, List.foldl_nil]
  | cons c passed ih =>
    rw [List.append_cons, ih, behind_concat]
    rfl

/-! ### Gaps -/

/-- Characters between two lexemes, and the rest of the text. A comment goes up to a line feed or the end
of the text. -/
inductive IsGap : (gap rest : List Char) → Prop
  | nil {rest} : IsGap [] rest
  | blank {c gap rest} : isBlank c = true → IsGap gap rest → IsGap (c :: gap) rest
  | comment {note gap rest} : '\n' ∉ note → (∀ c ∈ (gap ++ rest).head?, c = '\n') → IsGap gap rest →
      IsGap ('#' :: (note ++ gap)) rest

section

variable {gap note rest : List Char}

theorem skipGapFrom_comment (hn : '\n' ∉ note) (hr : ∀ c ∈ rest.head?, c = '\n') (l : Location) :
    Cursor.skipGapFrom l true (note ++ rest) = Cursor.skipGapFrom (l.through note) false rest := by
  induction note generalizing l with
  | nil =>
    cases rest with
    | nil => rfl
    | cons c rest =>
      obtain rfl : c = '\n' := hr c rfl
      rfl
  | cons c note ih =>
    obtain ⟨hc, hnote⟩ := not_or.1 (List.mem_cons.not.1 hn)
    have hflag : (c != '\n') = true := by simpa using Ne.symm hc
    rw [List.cons_append, Cursor.skipGapFrom, hflag, ih hnote]
    rfl

theorem skipGapFrom_gap (h : IsGap gap rest) (hr : ∀ c ∈ rest.head?, isSolid c = true) (l : Location) :
    Cursor.skipGapFrom l false (gap ++ rest) = ⟨rest, l.through gap⟩ := by
  induction h generalizing l with
  | nil => exact Cursor.skipGap_of_isSolid (k := ⟨_, l⟩) hr
  | @blank c gap rest hc _ ih =>
    have hne : c ≠ '#' := by
      rintro rfl
      cases hc
    rw [List.cons_append, Cursor.skipGapFrom, if_neg hne, if_pos hc, ih hr]
    rfl
  | @comment note gap rest hn hhead _ ih =>
    rw [List.cons_append, Cursor.skipGapFrom, if_pos rfl, List.append_assoc,
      skipGapFrom_comment hn hhead, ih hr]
    simp [Location.through]

/-- Every text begins with a gap behind which none begins. -/
theorem exists_gap (cs : List Char) :
    ∃ gap rest, cs = gap ++ rest ∧ IsGap gap rest ∧ ∀ c ∈ rest.head?, isSolid c = true := by
  induction hlen : cs.length using Nat.strongRecOn generalizing cs with
  | ind n ih =>
    cases cs with
    | nil => exact ⟨[], [], rfl, .nil, by simp⟩
    | cons c cs =>
      by_cases hblank : isBlank c = true
      · obtain ⟨gap, rest, rfl, hgap, hrest⟩ := ih cs.length (by simp [← hlen]) cs rfl
        exact ⟨c :: gap, rest, rfl, .blank hblank hgap, hrest⟩
      · by_cases hc : c = '#'
        · subst hc
          -- the comment ends where the line does
          obtain ⟨gap, rest, hsplit, hgap, hrest⟩ := ih (cs.dropWhile (· != '\n')).length
            (by
              have hle := (List.dropWhile_sublist (· != '\n') (l := cs)).length_le
              rw [← hlen, List.length_cons]
              omega) _ rfl
          have hstops := stops_dropWhile (· != '\n') cs
          refine ⟨'#' :: (cs.takeWhile (· != '\n') ++ gap), rest, ?_, .comment ?_ ?_ hgap, hrest⟩
          · rw [List.cons_append, List.append_assoc, ← hsplit, List.takeWhile_append_dropWhile]
          · intro hm
            have hall := List.all_eq_true.1 (List.all_takeWhile (p := (· != '\n')) (l := cs)) _ hm
            simp at hall
          · rw [← hsplit]
            intro d hd
            simpa using hstops d hd
        · refine ⟨[], c :: cs, rfl, .nil, fun d hd => ?_⟩
          cases hd
          simp [isSolid, hc, hblank]

end

/-! ### Lexemes -/

/-- Characters that are written for a token, and the rest of the text. The flag says whether the token
before can end an operand. -/
inductive Lexeme (afterOperand : Bool) : (lexeme rest : List Char) → TokenKind → Prop
  | int {digits rest} {w : Word} : digits ≠ [] → (∀ c ∈ digits, c.isDigit = true) →
      Stops Char.isDigit rest → w.toNat = Nat.ofDigitChars 10 digits 0 →
      Lexeme afterOperand digits rest (.int w)
  | keyword {k : Keyword} {rest} : Stops isWordPart rest →
      Lexeme afterOperand k.text.toList rest (.keyword k)
  | name {c cs rest} : isWordStart c = true → (∀ d ∈ cs, isWordPart d = true) → Stops isWordPart rest →
      (∀ k : Keyword, k.text.toList ≠ c :: cs) →
      Lexeme afterOperand (c :: cs) rest (.name (String.ofList (c :: cs)))
  | quoted {c rest} : Lexeme afterOperand ['\x27', c, '\x27'] rest (.int c.val)
  | assign {rest} : Lexeme afterOperand [':', '='] rest .assign
  | semicolon {rest} : Lexeme afterOperand [';'] rest .semicolon
  | leftParen {rest} : Lexeme afterOperand ['('] rest .leftParen
  | rightParen {rest} : Lexeme afterOperand [')'] rest .rightParen
  | comma {rest} : Lexeme afterOperand [','] rest .comma
  | binary {op rest} : op ≠ .subtract → Lexeme afterOperand [op.symbol] rest (.binary op)
  | unary {op rest} : op ≠ .negate → Lexeme afterOperand [op.symbol] rest (.unary op)
  | minus {rest} : Lexeme afterOperand ['-'] rest (if afterOperand then .binary .subtract else .unary .negate)

section

variable {b b' : Bool} {c : Char} {cs lexeme lexeme' rest rest' : List Char} {k k' : TokenKind}
  {l : Location} {after : Cursor}

theorem ofText?_eq_none_iff {text : String} :
    Keyword.ofText? text = none ↔ ∀ k : Keyword, k.text ≠ text := by
  have hall : ∀ k : Keyword, k ∈ Keyword.all := by
    intro k
    cases k <;> decide
  simp [Keyword.ofText?, hall]

theorem text_of_ofText? {text : String} {k : Keyword} (h : Keyword.ofText? text = some k) :
    k.text = text := by
  simpa using List.find?_some h

theorem readKind_word (hr : Stops isWordPart rest) {x : String} (hx : isWordShaped x = true) (l : Location) :
    ∃ l', readKind b ⟨x.toList ++ rest, l⟩ = (.ok (wordToken x), ⟨rest, l'⟩) := by
  obtain ⟨c, cs, l', htext, _, hread⟩ : ∃ c cs l', x.toList = c :: cs ∧ isSolid c = true ∧
      readToken b c ⟨c :: (cs ++ rest), l⟩ = (.ok (wordToken x), ⟨rest, l'⟩) :=
    readToken_word hr hx rfl
  rw [htext]
  exact ⟨l', hread⟩

theorem readKind_symbol (hw : isWordPart c = false) (hq : c ≠ '\x27') (hcolon : c ≠ ':')
    (hk : symbolToken? b c = some k) (l : Location) :
    ∃ l', readKind b ⟨[c] ++ rest, l⟩ = (.ok k, ⟨rest, l'⟩) :=
  ⟨_, readToken_symbol hw hq hcolon hk⟩

/-- A lexeme is read as its token, and what follows it is left. -/
theorem Lexeme.readKind (h : Lexeme b lexeme rest k) (l : Location) :
    ∃ l', readKind b ⟨lexeme ++ rest, l⟩ = (.ok k, ⟨rest, l'⟩) := by
  cases h with
  | @int _ _ w hne hdigits hstops hw =>
    obtain ⟨c, cs, rfl⟩ := List.exists_cons_of_ne_nil hne
    obtain ⟨htake, hdrop⟩ := takeWhile_of_stops hdigits hstops
    have hnumber : numberToken (c :: cs) = .ok (.int w) := by
      simp only [numberToken, ← hw, if_pos w.toNat_lt, UInt32.ofNat_toNat]
    refine ⟨l.through (c :: cs), ?_⟩
    rw [Source.readKind]
    simp only [Cursor.peek, List.cons_append, List.head?_cons, readToken,
      if_pos (hdigits c List.mem_cons_self), Cursor.takeWhile]
    rw [← List.cons_append, htake, hdrop, hnumber]
  | @keyword k _ hstops =>
    rw [← wordToken_text k]
    exact readKind_word hstops (isWordShaped_text k) l
  | @name c cs _ hstart hparts hstops hnot =>
    have hshaped : isWordShaped (String.ofList (c :: cs)) = true := by
      simpa [isWordShaped, hstart] using hparts
    have hword : wordToken (String.ofList (c :: cs)) = .name (String.ofList (c :: cs)) := by
      have hnone : Keyword.ofText? (String.ofList (c :: cs)) = none :=
        ofText?_eq_none_iff.2 fun k hk => hnot k (by rw [hk, String.toList_ofList])
      rw [wordToken, hnone]
    have hread := readKind_word (b := b) hstops hshaped l
    rwa [hword, String.toList_ofList] at hread
  | quoted => exact ⟨_, rfl⟩
  | assign => exact ⟨_, rfl⟩
  | semicolon | leftParen | rightParen | comma =>
    exact readKind_symbol (by decide) (by decide) (by decide) rfl l
  | @binary op _ hop =>
    cases op <;> first
      | exact absurd rfl hop
      | exact readKind_symbol (by decide) (by decide) (by decide) rfl l
  | @unary op _ hop =>
    cases op <;> first
      | exact absurd rfl hop
      | exact readKind_symbol (by decide) (by decide) (by decide) rfl l
  | minus => exact readKind_symbol (by decide) (by decide) (by decide) rfl l

theorem lexeme_of_numberToken (hc : c.isDigit = true)
    (h : numberToken ((c :: cs).takeWhile Char.isDigit) = .ok k) :
    Lexeme b ((c :: cs).takeWhile Char.isDigit) ((c :: cs).dropWhile Char.isDigit) k := by
  simp only [numberToken] at h
  split at h
  · next hlt =>
    cases h
    refine .int ?_ (List.all_eq_true.1 List.all_takeWhile) (stops_dropWhile _ _)
      (UInt32.toNat_ofNat_of_lt' hlt)
    rw [List.takeWhile_cons_of_pos hc]
    exact List.cons_ne_nil _ _
  · cases h

theorem lexeme_wordToken (hc : isWordStart c = true) :
    Lexeme b ((c :: cs).takeWhile isWordPart) ((c :: cs).dropWhile isWordPart)
      (wordToken (String.ofList ((c :: cs).takeWhile isWordPart))) := by
  have hstops : Stops isWordPart ((c :: cs).dropWhile isWordPart) := stops_dropWhile _ _
  have hword : (c :: cs).takeWhile isWordPart = c :: cs.takeWhile isWordPart :=
    List.takeWhile_cons_of_pos (isWordPart_of_isWordStart hc)
  rw [wordToken]
  split
  · next k hk =>
    have htext := congrArg String.toList (text_of_ofText? hk)
    rw [String.toList_ofList] at htext
    rw [← htext]
    exact .keyword hstops
  · next hk =>
    rw [hword] at hk ⊢
    refine .name hc (List.all_eq_true.1 List.all_takeWhile) hstops fun k htext => ?_
    exact ofText?_eq_none_iff.1 hk k (String.toList_inj.1 (by rw [htext, String.toList_ofList]))

theorem lexeme_of_symbolToken? (h : symbolToken? b c = some k) (rest : List Char) : Lexeme b [c] rest k := by
  unfold symbolToken? at h
  split at h
  · cases h
    exact .semicolon
  · cases h
    exact .leftParen
  · cases h
    exact .rightParen
  · cases h
    exact .comma
  · cases h
    exact .minus
  · next hminus =>
    obtain h | ⟨_, h⟩ := Option.or_eq_some_iff.1 h
    · obtain ⟨op, hop, rfl⟩ := Option.map_eq_some_iff.1 h
      obtain rfl := BinaryOp.symbol_of_ofSymbol? hop
      refine .binary ?_
      rintro rfl
      exact hminus rfl
    · obtain ⟨op, hop, rfl⟩ := Option.map_eq_some_iff.1 h
      obtain rfl := UnaryOp.symbol_of_ofSymbol? hop
      refine .unary ?_
      rintro rfl
      exact hminus rfl

/-- What is read as a token is a lexeme. -/
theorem exists_lexeme_of_readKind (h : readKind b ⟨c :: cs, l⟩ = (.ok k, after)) :
    ∃ lexeme, c :: cs = lexeme ++ after.rest ∧ Lexeme b lexeme after.rest k := by
  simp only [readKind, Cursor.peek, List.head?_cons] at h
  unfold readToken at h
  split at h
  · next hc =>
    obtain ⟨hk, rfl⟩ := Prod.mk.inj h
    exact ⟨_, List.takeWhile_append_dropWhile.symm, lexeme_of_numberToken hc hk⟩
  · split at h
    · next hc =>
      cases h
      exact ⟨_, List.takeWhile_append_dropWhile.symm, lexeme_wordToken hc⟩
    · dsimp only at h
      split at h
      · next hq =>
        subst hq
        obtain ⟨x, hcs, rfl⟩ := readQuoted_eq_ok h
        have hrest : cs = x :: '\x27' :: after.rest := hcs
        exact ⟨_, by rw [hrest]; rfl, .quoted⟩
      · split at h
        · next hassign =>
          obtain ⟨rfl, hpeek⟩ := hassign
          obtain ⟨rest, rfl⟩ := List.head?_eq_some_iff.1 hpeek
          cases h
          exact ⟨_, rfl, .assign⟩
        · split at h
          · next t ht =>
            cases h
            exact ⟨_, rfl, lexeme_of_symbolToken? ht cs⟩
          · cases h

theorem Lexeme.exists_solid (h : Lexeme b lexeme rest k) :
    ∃ c cs, lexeme = c :: cs ∧ isSolid c = true := by
  cases h with
  | int hne hdigits =>
    obtain ⟨c, cs, rfl⟩ := List.exists_cons_of_ne_nil hne
    have hc := hdigits c List.mem_cons_self
    exact ⟨c, cs, rfl, isSolid_of_isWordPart (by simp [isWordPart, Char.isAlphanum, hc])⟩
  | @keyword k => cases k <;> exact ⟨_, _, rfl, by decide⟩
  | name hstart => exact ⟨_, _, rfl, isSolid_of_isWordPart (isWordPart_of_isWordStart hstart)⟩
  | @binary op => cases op <;> exact ⟨_, _, rfl, by decide⟩
  | @unary op => cases op <;> exact ⟨_, _, rfl, by decide⟩
  | quoted | assign | semicolon | leftParen | rightParen | comma | minus =>
    exact ⟨_, _, rfl, by decide⟩

theorem Lexeme.ne_endOfText (h : Lexeme b lexeme rest k) : k ≠ .endOfText := by
  cases h with
  | minus => cases b <;> simp
  | _ => simp

theorem Lexeme.isSolid_head? (h : Lexeme b lexeme rest k) :
    ∀ c ∈ (lexeme ++ rest).head?, isSolid c = true := by
  obtain ⟨c, cs, rfl, hc⟩ := h.exists_solid
  intro d hd
  cases hd
  exact hc

/-- One lexeme begins at a place, and it is written for one token. -/
theorem Lexeme.unique (h : Lexeme b lexeme rest k) (h' : Lexeme b lexeme' rest' k')
    (he : lexeme ++ rest = lexeme' ++ rest') : lexeme = lexeme' ∧ rest = rest' ∧ k = k' := by
  obtain ⟨l, hread⟩ := h.readKind .start
  obtain ⟨l', hread'⟩ := h'.readKind .start
  rw [he, hread'] at hread
  cases hread
  exact ⟨List.append_cancel_right he, rfl, rfl⟩

/-- What follows a lexeme does not matter for its token, and what precedes it only for a minus. -/
theorem Lexeme.alone (h : Lexeme b lexeme rest k) (hb : lexeme = ['-'] → b = b') :
    Lexeme b' lexeme [] k := by
  have hstops : ∀ {p}, Stops p [] := fun c hc => by cases hc
  cases h with
  | int hne hdigits _ hw => exact .int hne hdigits hstops hw
  | keyword => exact .keyword hstops
  | name hstart hparts _ hnot => exact .name hstart hparts hstops hnot
  | quoted => exact .quoted
  | assign => exact .assign
  | semicolon => exact .semicolon
  | leftParen => exact .leftParen
  | rightParen => exact .rightParen
  | comma => exact .comma
  | binary hop => exact .binary hop
  | unary hop => exact .unary hop
  | minus =>
    rw [hb rfl]
    exact .minus

theorem gap_unique {gap gap' : List Char} (h : IsGap gap rest) (h' : IsGap gap' rest')
    (hr : ∀ c ∈ rest.head?, isSolid c = true) (hr' : ∀ c ∈ rest'.head?, isSolid c = true)
    (he : gap ++ rest = gap' ++ rest') : gap = gap' ∧ rest = rest' := by
  have hskip := skipGapFrom_gap h hr .start
  rw [he, skipGapFrom_gap h' hr'] at hskip
  obtain rfl : rest' = rest := congrArg Cursor.rest hskip
  exact ⟨List.append_cancel_right he, rfl⟩

end

/-! ### Partitions -/

structure Piece where
  gap : List Char
  lexeme : List Char
  token : Token

def Piece.text (p : Piece) : List Char := p.gap ++ p.lexeme

/-- The rest of a text behind some characters is divided into pieces, a gap and what is not read. No
lexeme begins where the pieces end. The flag says whether the token before can end an operand. -/
inductive Partition : (before : List Char) → (afterOperand : Bool) → (rest : List Char) → List Piece →
    (gap unread : List Char) → Prop
  | last {before b gap unread} : IsGap gap unread → (∀ c ∈ unread.head?, isSolid c = true) →
      (∀ lexeme rest k, unread = lexeme ++ rest → ¬Lexeme b lexeme rest k) →
      Partition before b (gap ++ unread) [] gap unread
  | piece {before b gap lexeme rest k pieces g unread} : IsGap gap (lexeme ++ rest) →
      Lexeme b lexeme rest k →
      Partition (before ++ (gap ++ lexeme)) k.endsOperand rest pieces g unread →
      Partition before b (gap ++ (lexeme ++ rest))
        (⟨gap, lexeme, ⟨k, .behind (before ++ gap)⟩⟩ :: pieces) g unread

def TokenStream.following : List Token → TokenStream → TokenStream
  | [], s => s
  | t :: ts, s => .token t (following ts s)

section

variable {before cs cs' gap gap' unread unread' : List Char} {b : Bool} {pieces pieces' : List Piece}
  {l : Lexer} {m : Mistake} {start after : Cursor}

theorem Partition.text_eq (h : Partition before b cs pieces gap unread) :
    cs = pieces.flatMap Piece.text ++ (gap ++ unread) := by
  induction h with
  | last => rfl
  | piece _ _ _ ih =>
    rw [List.flatMap_cons, List.append_assoc, ← ih, Piece.text, List.append_assoc]

theorem Partition.unique (h : Partition before b cs pieces gap unread)
    (h' : Partition before b cs' pieces' gap' unread') (he : cs = cs') :
    pieces' = pieces ∧ gap' = gap ∧ unread' = unread := by
  induction h generalizing cs' pieces' gap' unread' with
  | last hgap hsolid hno =>
    cases h' with
    | last hgap' hsolid' _ =>
      obtain ⟨rfl, rfl⟩ := gap_unique hgap hgap' hsolid hsolid' he
      exact ⟨rfl, rfl, rfl⟩
    | piece hgap' hlexeme _ =>
      obtain ⟨_, hunread⟩ := gap_unique hgap hgap' hsolid hlexeme.isSolid_head? he
      exact absurd hlexeme (hno _ _ _ hunread)
  | piece hgap hlexeme _ ih =>
    cases h' with
    | last hgap' hsolid' hno =>
      obtain ⟨_, hunread⟩ := gap_unique hgap hgap' hlexeme.isSolid_head? hsolid' he
      exact absurd hlexeme (hno _ _ _ hunread.symm)
    | piece hgap' hlexeme' hrest' =>
      obtain ⟨rfl, hsplit⟩ := gap_unique hgap hgap' hlexeme.isSolid_head? hlexeme'.isSolid_head? he
      obtain ⟨rfl, rfl, rfl⟩ := hlexeme.unique hlexeme' hsplit
      obtain ⟨rfl, rfl, rfl⟩ := ih hrest' rfl
      exact ⟨rfl, rfl, rfl⟩

theorem exists_partition (before : List Char) (b : Bool) (cs : List Char) :
    ∃ pieces gap unread, Partition before b cs pieces gap unread := by
  induction hlen : cs.length using Nat.strongRecOn generalizing before b cs with
  | ind n ih =>
    obtain ⟨gap, unread, rfl, hgap, hsolid⟩ := exists_gap cs
    by_cases hsome : ∃ lexeme rest k, unread = lexeme ++ rest ∧ Lexeme b lexeme rest k
    · obtain ⟨lexeme, rest, k, rfl, hlexeme⟩ := hsome
      obtain ⟨c, cs, hcs, _⟩ := hlexeme.exists_solid
      have hlt : rest.length < n := by
        rw [← hlen, hcs]
        simp only [List.length_append, List.length_cons]
        omega
      obtain ⟨pieces, g, u, h⟩ := ih rest.length hlt (before ++ (gap ++ lexeme)) k.endsOperand rest rfl
      exact ⟨_, g, u, .piece hgap hlexeme h⟩
    · refine ⟨[], gap, unread, .last hgap hsolid fun lexeme rest k he hlexeme => ?_⟩
      exact hsome ⟨lexeme, rest, k, he, hlexeme⟩

/-! ### Reading -/

theorem stream_of_readKind_error (hstart : l.cursor.skipGap = start)
    (h : readKind l.afterOperand start = (.error m, after)) : l.stream = .failed ⟨m, start.location⟩ := by
  subst hstart
  simp only [stream_eq, Lexer.read, h]

/-- Where no lexeme begins, nothing is read. -/
theorem exists_mistake (hne : cs ≠ [])
    (hno : ∀ lexeme rest k, cs = lexeme ++ rest → ¬Lexeme b lexeme rest k) (l : Location) :
    ∃ m after, readKind b ⟨cs, l⟩ = (.error m, after) := by
  obtain ⟨c, cs, rfl⟩ := List.exists_cons_of_ne_nil hne
  rcases hread : readKind b ⟨c :: cs, l⟩ with ⟨m | k, after⟩
  · exact ⟨m, after, rfl⟩
  · obtain ⟨lexeme, hsplit, hlexeme⟩ := exists_lexeme_of_readKind hread
    exact absurd hlexeme (hno _ _ _ hsplit)

theorem Lexeme.readKind_behind {lexeme rest : List Char} {k : TokenKind} (h : Lexeme b lexeme rest k)
    (before : List Char) : Source.readKind b ⟨lexeme ++ rest, .behind before⟩ =
      (.ok k, ⟨rest, .behind (before ++ lexeme)⟩) := by
  obtain ⟨l, hread⟩ := h.readKind (.behind before)
  obtain ⟨passed, hpassed, hl⟩ := Cursor.movesTo_readKind b ⟨lexeme ++ rest, .behind before⟩
  rw [hread] at hpassed hl
  obtain rfl := List.append_cancel_right hpassed
  rw [hread, behind_append, ← show l = _ from hl]

/-- The tokens of the pieces are read, and then the end of the text or an error at what is not read. -/
theorem Partition.stream_eq (h : Partition before b cs pieces gap unread)
    (hcursor : l.cursor = ⟨cs, .behind before⟩) (hb : l.afterOperand = b) :
    (unread = [] ∧ l.stream = .following (pieces.map Piece.token)
      (.endOfText (.behind (before ++ (pieces.flatMap Piece.text ++ gap))))) ∨
    unread ≠ [] ∧ ∃ m, l.stream = .following (pieces.map Piece.token)
      (.failed ⟨m, .behind (before ++ (pieces.flatMap Piece.text ++ gap))⟩) := by
  induction h generalizing l with
  | @last before b gap unread hgap hsolid hno =>
    have hskip : l.cursor.skipGap = ⟨unread, .behind (before ++ gap)⟩ := by
      rw [hcursor, behind_append]
      exact skipGapFrom_gap hgap hsolid _
    by_cases hne : unread = []
    · subst hne
      exact .inl ⟨rfl, stream_of_readKind hskip rfl⟩
    · obtain ⟨m, after, hread⟩ := exists_mistake hne hno (.behind (before ++ gap))
      exact .inr ⟨hne, m, stream_of_readKind_error hskip (hb ▸ hread)⟩
  | @piece before b gap lexeme rest k pieces g unread hgap hlexeme _ ih =>
    have hskip : l.cursor.skipGap = ⟨lexeme ++ rest, .behind (before ++ gap)⟩ := by
      rw [hcursor, behind_append]
      exact skipGapFrom_gap hgap hlexeme.isSolid_head? _
    have hstream := stream_of_readKind hskip (hb ▸ hlexeme.readKind_behind (before ++ gap))
    rw [if_neg hlexeme.ne_endOfText] at hstream
    rw [hstream, List.flatMap_cons]
    have hbefore : before ++ gap ++ lexeme = before ++ (gap ++ lexeme) := List.append_assoc _ _ _
    rcases ih (l := ⟨⟨rest, .behind (before ++ gap ++ lexeme)⟩, k.endsOperand, none, _⟩)
      (by rw [hbefore]) rfl with ⟨hu, hs⟩ | ⟨hu, m, hs⟩
    · refine .inl ⟨hu, ?_⟩
      rw [hs]
      simp [TokenStream.following, Piece.text]
    · refine .inr ⟨hu, m, ?_⟩
      rw [hs]
      simp [TokenStream.following, Piece.text]

end

/-- A text is divided into gaps and lexemes in one way, and nothing of it is lost. Its tokens are those
of the lexemes, each at the place of its first character, and they are followed by the end of the text,
or by an error if there is more text behind the last gap, where no lexeme begins. What a lexeme is written
for depends on the lexeme alone, but for a minus, where it depends on the token before. -/
theorem text_partitioned (text : String) :
    (∃ pieces gap unread, Partition [] false text.toList pieces gap unread ∧
      (∀ pieces' gap' unread', Partition [] false text.toList pieces' gap' unread' →
        pieces' = pieces ∧ gap' = gap ∧ unread' = unread) ∧
      text.toList = pieces.flatMap Piece.text ++ (gap ++ unread) ∧
      ((unread = [] ∧ TokenStream.ofText text =
          .following (pieces.map Piece.token) (.endOfText (.behind text.toList))) ∨
        unread ≠ [] ∧ ∃ m, TokenStream.ofText text =
          .following (pieces.map Piece.token) (.failed ⟨m, .behind (pieces.flatMap Piece.text ++ gap)⟩))) ∧
    ∀ b b' lexeme rest rest' k k', Lexeme b lexeme rest k → Lexeme b' lexeme rest' k' →
      (lexeme = ['-'] → b = b') → k = k' := by
  constructor
  · obtain ⟨pieces, gap, unread, h⟩ := exists_partition [] false text.toList
    refine ⟨pieces, gap, unread, h, fun pieces' gap' unread' h' => h.unique h' rfl, h.text_eq, ?_⟩
    rcases h.stream_eq (l := .ofText text) rfl rfl with ⟨hu, hs⟩ | hs
    · refine .inl ⟨hu, ?_⟩
      have htext : text.toList = pieces.flatMap Piece.text ++ gap := by
        rw [h.text_eq, hu, List.append_nil]
      rw [htext]
      exact hs
    · exact .inr hs
  · intro b b' lexeme rest rest' k k' h h' hb
    exact ((h.alone hb).unique (h'.alone fun _ => rfl) rfl).2.2

end WordMachine.Source
