import WordMachine.Proofs.Source.Spelling

/-!
# Where tokens start

A lexer reads a text from left to right and passes nothing twice. So behind any tokens of a text there is
a place from which on the rest of the stream is read, and the next lexeme starts there. Its location is
that of its first character.
-/

namespace WordMachine.Source

namespace Cursor

def MovesTo (k k' : Cursor) : Prop :=
  ∃ passed, k.rest = passed ++ k'.rest ∧ k'.location = k.location.through passed

variable {k k' k'' : Cursor}

theorem movesTo_refl : k.MovesTo k := ⟨[], rfl, rfl⟩

theorem MovesTo.trans (h : k.MovesTo k') (h' : k'.MovesTo k'') : k.MovesTo k'' := by
  obtain ⟨passed, hrest, hlocation⟩ := h
  obtain ⟨passed', hrest', hlocation'⟩ := h'
  refine ⟨passed ++ passed', ?_, ?_⟩
  · rw [hrest, hrest', List.append_assoc]
  · rw [hlocation', hlocation, Location.through, Location.through, Location.through, List.foldl_append]

theorem movesTo_cons {c : Char} {cs : List Char} {l : Location} :
    MovesTo ⟨c :: cs, l⟩ ⟨cs, l.after c⟩ := ⟨[c], rfl, rfl⟩

theorem movesTo_takeWhile (p : Char → Bool) (k : Cursor) : k.MovesTo (k.takeWhile p).2 :=
  ⟨k.rest.takeWhile p, List.takeWhile_append_dropWhile.symm, rfl⟩

theorem movesTo_next (k : Cursor) : k.MovesTo k.next.2 := by
  obtain ⟨_ | ⟨c, cs⟩, l⟩ := k
  · exact movesTo_refl
  · exact movesTo_cons

theorem movesTo_skipGapFrom (l : Location) (comment : Bool) (cs : List Char) :
    MovesTo ⟨cs, l⟩ (skipGapFrom l comment cs) := by
  fun_induction skipGapFrom l comment cs with
  | case1 => exact movesTo_refl
  | case2 l c cs ih => exact movesTo_cons.trans ih
  | case3 l cs ih => exact movesTo_cons.trans ih
  | case4 l c cs _ _ ih => exact movesTo_cons.trans ih
  | case5 => exact movesTo_refl

/-- A gap is passed as a whole. -/
theorem isSolid_of_skipGapFrom (l : Location) (comment : Bool) (cs : List Char) :
    ∀ c ∈ (skipGapFrom l comment cs).rest.head?, isSolid c = true := by
  fun_induction skipGapFrom l comment cs with
  | case1 => simp
  | case2 l c cs ih => exact ih
  | case3 l cs ih => exact ih
  | case4 l c cs _ _ ih => exact ih
  | case5 l c cs hcomment hblank =>
    intro c' hc
    cases hc
    simp [isSolid, hcomment, hblank]

theorem skipGap_of_isSolid (h : ∀ c ∈ k.rest.head?, isSolid c = true) : k.skipGap = k := by
  obtain ⟨_ | ⟨c, cs⟩, l⟩ := k
  · rfl
  · exact skipGapFrom_solid (h c rfl) cs l

theorem movesTo_readQuoted (k : Cursor) : k.MovesTo (readQuoted k).2 := by
  obtain ⟨_ | ⟨c, _ | ⟨q, cs⟩⟩, l⟩ := k
  · exact movesTo_refl
  · exact movesTo_cons
  · exact movesTo_cons.trans movesTo_cons

theorem movesTo_readToken (afterOperand : Bool) (c : Char) (k : Cursor) :
    k.MovesTo (readToken afterOperand c k).2 := by
  unfold readToken
  split
  · exact movesTo_takeWhile Char.isDigit k
  · split
    · exact movesTo_takeWhile isWordPart k
    · have hnext := movesTo_next k
      dsimp only
      split
      · exact hnext.trans (movesTo_readQuoted _)
      · split
        · exact hnext.trans (movesTo_next _)
        · split <;> exact hnext

theorem movesTo_readKind (afterOperand : Bool) (k : Cursor) : k.MovesTo (readKind afterOperand k).2 := by
  unfold readKind
  split
  · exact movesTo_refl
  · exact movesTo_readToken afterOperand _ k

end Cursor

/-! ### The rest of a stream -/

def endsOperand (ks : List TokenKind) (before : Bool) : Bool :=
  (ks.getLast?.map TokenKind.endsOperand).getD before

theorem endsOperand_cons (k : TokenKind) (ks : List TokenKind) (before : Bool) :
    endsOperand (k :: ks) before = endsOperand ks k.endsOperand := by
  rw [endsOperand, endsOperand, List.getLast?_cons]
  cases ks.getLast? <;> rfl

theorem eq_of_read {l after : Lexer} {t : Token} (h : l.read = (.ok t, after)) :
    l.cursor.MovesTo after.cursor ∧ after.afterOperand = t.kind.endsOperand := by
  have hgap := Cursor.movesTo_skipGapFrom l.cursor.location false l.cursor.rest
  have hkind := Cursor.movesTo_readKind l.afterOperand l.cursor.skipGap
  unfold Lexer.read at h
  dsimp only at h
  split at h
  · next kind cursor hk =>
    cases h
    rw [hk] at hkind
    exact ⟨hgap.trans hkind, rfl⟩
  · cases h

theorem stream_eq (l : Lexer) : l.stream = match l.read with
    | (.error e, _) => .failed e
    | (.ok t, after) =>
      if t.kind = .endOfText then .endOfText t.location else .token t after.stream := by
  rw [Lexer.stream]
  split
  · next hr => rw [hr]
  · next hr =>
    split <;> simp only [*, if_true, if_false]

/-- Gaps before a lexeme do not matter. -/
theorem stream_congr {l l' : Lexer} (hgap : l.cursor.skipGap = l'.cursor.skipGap)
    (hafter : l.afterOperand = l'.afterOperand) : l.stream = l'.stream := by
  have hread : l.read = l'.read := by rw [Lexer.read, Lexer.read, hgap, hafter]
  rw [stream_eq, stream_eq, hread]

theorem read_of_token {l : Lexer} {t : Token} {r : TokenStream} (h : l.stream = .token t r) :
    ∃ after, l.read = (.ok t, after) ∧ r = after.stream := by
  rw [stream_eq] at h
  split at h
  · cases h
  · next u after hr =>
    split at h
    · cases h
    · cases h
      exact ⟨after, hr, rfl⟩

theorem read_of_first? {l : Lexer} {t : Token} (h : l.stream.first? = some t) : l.read.1 = .ok t := by
  rw [stream_eq] at h
  split at h
  · cases h
  · next u after hr =>
    rw [hr]
    split at h
    · next hu =>
      cases h
      rw [← hu]
    · cases h
      rfl

theorem read_of_failed {l : Lexer} {e : ParseError} (h : l.stream = .failed e) :
    l.read.1 = .error e := by
  rw [stream_eq] at h
  split at h
  · next hr =>
    cases h
    rw [hr]
  · split at h <;> cases h

/-- Tokens lead to what another lexer reads, which has moved on. -/
theorem lexer_of_leads {l : Lexer} {ks : List TokenKind} {v : TokenStream} (h : Leads ks l.stream v) :
    ∃ l' : Lexer, v = l'.stream ∧ l.cursor.MovesTo l'.cursor ∧
      l'.afterOperand = endsOperand ks l.afterOperand := by
  induction ks generalizing l with
  | nil => exact ⟨l, h.symm, Cursor.movesTo_refl, rfl⟩
  | cons k ks ih =>
    obtain ⟨location, r, hs, h⟩ := h
    obtain ⟨after, hr, rfl⟩ := read_of_token hs
    obtain ⟨hmoves, hafter⟩ := eq_of_read hr
    obtain ⟨l', hv, hmoves', hl'⟩ := ih h
    exact ⟨l', hv, hmoves.trans hmoves', by rw [hl', hafter, endsOperand_cons]⟩

def TokenStream.behind (ks : List TokenKind) (before rest : List Char) : TokenStream :=
  Lexer.stream ⟨⟨rest, Location.start.through before⟩, endsOperand ks false, none, .start⟩

/-- The tokens `ks` of a text are those of the characters before a place. There a lexeme starts, or the
text ends, and the tokens after them are read from there on. -/
structure Place (text : String) (ks : List TokenKind) (before rest : List Char) : Prop where
  text_eq : text.toList = before ++ rest
  solid : ∀ c ∈ rest.head?, isSolid c = true
  leads : Leads ks (.ofText text) (.behind ks before rest)

/-- Behind tokens of a text there is the place of the next one. -/
theorem place_of_leads {text : String} {ks : List TokenKind} {v : TokenStream}
    (h : Leads ks (.ofText text) v) :
    ∃ before rest, Place text ks before rest ∧ v = .behind ks before rest := by
  obtain ⟨l, rfl, hmoves, hafter⟩ := lexer_of_leads h
  have hgap := Cursor.movesTo_skipGapFrom l.cursor.location false l.cursor.rest
  have hsolid := Cursor.isSolid_of_skipGapFrom l.cursor.location false l.cursor.rest
  obtain ⟨before, htext, hlocation⟩ := hmoves.trans hgap
  -- the place is where the lexer is when it has passed the gap before the next lexeme
  have hcursor : l.cursor.skipGap = ⟨l.cursor.skipGap.rest, Location.start.through before⟩ :=
    congrArg (Cursor.mk _) hlocation
  have hskip := Cursor.skipGap_of_isSolid (k := l.cursor.skipGap) hsolid
  have hv : l.stream = .behind ks before l.cursor.skipGap.rest :=
    stream_congr (by rw [← hcursor, hskip]) hafter
  exact ⟨before, _, ⟨htext, hsolid, hv ▸ h⟩, hv⟩

section

variable {text : String} {ks : List TokenKind} {before rest : List Char}

theorem Place.read_eq (h : Place text ks before rest) :
    (Lexer.read ⟨⟨rest, Location.start.through before⟩, endsOperand ks false, none, .start⟩).1 =
      match (readKind (endsOperand ks false) ⟨rest, Location.start.through before⟩).1 with
      | .ok k => .ok ⟨k, Location.start.through before⟩
      | .error m => .error ⟨m, Location.start.through before⟩ := by
  have hskip : Cursor.skipGap ⟨rest, Location.start.through before⟩ = _ :=
    Cursor.skipGap_of_isSolid h.solid
  simp only [Lexer.read, hskip]
  split <;> next hk => rw [hk]

theorem Place.readKind_of_first? (h : Place text ks before rest) {k : TokenKind} {l : Location}
    (hk : (TokenStream.behind ks before rest).first? = some ⟨k, l⟩) :
    l = Location.start.through before ∧
      (readKind (endsOperand ks false) ⟨rest, Location.start.through before⟩).1 = .ok k := by
  have hr := read_of_first? hk
  rw [h.read_eq] at hr
  split at hr
  · next k hread =>
    cases hr
    exact ⟨rfl, hread⟩
  · cases hr

theorem Place.readKind_of_failed (h : Place text ks before rest) {e : ParseError}
    (he : TokenStream.behind ks before rest = .failed e) :
    e.location = Location.start.through before ∧
      (readKind (endsOperand ks false) ⟨rest, Location.start.through before⟩).1 = .error e.mistake := by
  have hr := read_of_failed he
  rw [h.read_eq] at hr
  split at hr
  · cases hr
  · next hk =>
    cases hr
    exact ⟨rfl, hk⟩

end

end WordMachine.Source
