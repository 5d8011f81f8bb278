import WordMachine.Proofs.Source.Completeness
import WordMachine.Proofs.Source.Names
import WordMachine.Proofs.Source.Spelling

/-!
# The accepted programs

A text that is all tokens is parsed if and only if its tokens are derived from a program, and the result
is the program. The parser departs from the documented grammar in two places: it wants a name after
FOR, and it takes a comma at the end of a list.
-/

namespace WordMachine.Source

namespace Grammar

/-! ### Readings of the grammar -/

/-- A derivation in one reading can be one in another, as far as commas go: either the other has all
commas of the first, or no list in the tokens ends with one. -/
def Kept (d d' : Dialect) (ks : List TokenKind) : Prop :=
  (d.trailingComma = true → d'.trailingComma = true) ∨ ¬ [.comma, .rightParen] <:+: ks

section

variable {d d' : Dialect} {k : TokenKind} {ks ls : List TokenKind}

theorem Kept.infix (h : Kept d d' ls) (hks : ks <:+: ls) : Kept d d' ks :=
  h.imp_right fun hno hin => hno (hin.trans hks)

theorem Kept.left (h : Kept d d' (ks ++ ls)) : Kept d d' ks :=
  h.infix (List.prefix_append ks ls).isInfix

theorem Kept.right (h : Kept d d' (ks ++ ls)) : Kept d d' ls :=
  h.infix (List.suffix_append ks ls).isInfix

theorem Kept.tail (h : Kept d d' (k :: ks)) : Kept d d' ks := h.infix (List.suffix_cons k ks).isInfix

/-- What is claimed of a derivation in another reading. A list is followed by a parenthesis. -/
def Phrase.Changes (d d' : Dialect) : Phrase → List TokenKind → Prop
  | items es, ks => Kept d d' (ks ++ [.rightParen]) → Derives d' (.items es) ks
  | arguments es, ks => Kept d d' (ks ++ [.rightParen]) → Derives d' (.arguments es) ks
  | names xs, ks => Kept d d' (ks ++ [.rightParen]) → Derives d' (.names xs) ks
  | parameters xs, ks => Kept d d' (ks ++ [.rightParen]) → Derives d' (.parameters xs) ks
  | p, ks => Kept d d' ks → Derives d' p ks

theorem not_kept_comma (ks : List TokenKind) (hd : d.trailingComma = true)
    (h : Kept d d' (ks ++ [.comma] ++ [.rightParen])) : d'.trailingComma = true := by
  obtain h | h := h
  · exact h hd
  · exact absurd ⟨ks, [], by simp⟩ h

theorem Derives.changes (hcounter : d.anyCounter = true → d'.anyCounter = true) {p : Phrase}
    (h : Derives d p ks) : p.Changes d d' ks := by
  induction h with
  | onlySum _ ih => exact fun hk => .onlySum (ih hk)
  | comparison hop _ _ ihl ihr => exact fun hk => .comparison hop (ihl hk.left) (ihr hk.right.tail)
  | onlyProduct _ ih => exact fun hk => .onlyProduct (ih hk)
  | additive hop _ _ ihl ihr => exact fun hk => .additive hop (ihl hk.left) (ihr hk.right.tail)
  | onlyAtom _ ih => exact fun hk => .onlyAtom (ih hk)
  | multiplicative hop _ _ ihl ihr =>
    exact fun hk => .multiplicative hop (ihl hk.left) (ihr hk.right.tail)
  | unary _ ih => exact fun hk => .unary (ih hk.tail)
  | int => exact fun _ => .int
  | parens _ ih => exact fun hk => .parens (ih hk.tail.left)
  | name => exact fun _ => .name
  | call _ ih => exact fun hk => .call (ih hk.tail.tail)
  | lastItem _ ih => exact fun hk => .lastItem (ih hk.left)
  | lastItemComma hd _ ih => exact fun hk => .lastItemComma (not_kept_comma _ hd hk) (ih hk.left.left)
  | moreItems _ _ ih ihs =>
    intro hk
    rw [List.append_assoc] at hk
    exact .moreItems (ih hk.left) (ihs hk.right.tail)
  | noArguments => exact fun _ => .noArguments
  | someArguments _ ih => exact fun hk => .someArguments (ih hk)
  | counter h _ ih => exact fun hk => .counter (h.imp_left hcounter) (ih hk)
  | condition _ ih => exact fun hk => .condition (ih hk)
  | startCondition _ _ ihs ih => exact fun hk => .startCondition (ihs hk.left) (ih hk.right.tail)
  | startConditionStep _ _ _ ihs ih ihstep =>
    intro hk
    have hk' := hk.right.tail
    exact .startConditionStep (ihs hk.left) (ih hk'.left) (ihstep hk'.right.tail)
  | ifOnly _ _ ih ihbody => exact fun hk => .ifOnly (ih hk.tail.left) (ihbody hk.tail.right.tail.left)
  | ifElse _ _ _ ih ihbody ihotherwise =>
    intro hk
    have hk' := hk.tail.right.tail
    exact .ifElse (ih hk.tail.left) (ihbody hk'.left) (ihotherwise hk'.right.tail.left)
  | whileDo _ _ ih ihbody => exact fun hk => .whileDo (ih hk.tail.left) (ihbody hk.tail.right.tail.left)
  | forDo _ _ _ ihcounter ihrange ihbody =>
    intro hk
    have hk' := hk.tail.right.tail
    exact .forDo (ihcounter hk.tail.left) (ihrange hk'.left) (ihbody hk'.right.tail.left)
  | retNothing => exact fun _ => .retNothing
  | ret _ ih => exact fun hk => .ret (ih hk.tail.left)
  | breakLoop => exact fun _ => .breakLoop
  | continueLoop => exact fun _ => .continueLoop
  | assign _ _ ihtarget ih => exact fun hk => .assign (ihtarget hk.left) (ih hk.right.tail.left)
  | exec _ ih => exact fun hk => .exec (ih hk.left)
  | noStatements => exact fun _ => .noStatements
  | moreStatements _ _ ih ihs => exact fun hk => .moreStatements (ih hk.left) (ihs hk.right)
  | lastName => exact fun _ => .lastName
  | lastNameComma hd => exact fun hk => .lastNameComma (not_kept_comma [_] hd hk)
  | moreNames _ ih => exact fun hk => .moreNames (ih hk.tail.tail)
  | noParameters => exact fun _ => .noParameters
  | someParameters _ ih => exact fun hk => .someParameters (ih hk)
  | function _ _ ih ihbody =>
    intro hk
    have hk' : Kept d d' _ := hk.tail.tail.tail
    rw [← List.singleton_append, ← List.append_assoc] at hk'
    exact .function (ih hk'.left) (ihbody hk'.right.left)
  | noFunctions => exact fun _ => .noFunctions
  | moreFunctions _ _ ih ihs => exact fun hk => .moreFunctions (ih hk.left) (ihs hk.right)

end

/-- Where no list ends with a comma, the strict reading is what is accepted. -/
theorem accepted_iff_strict {fs : List Function} {ks : List TokenKind}
    (h : ¬ [.comma, .rightParen] <:+: ks) :
    Derives .accepted (.program fs) ks ↔ Derives .strict (.program fs) ks :=
  ⟨fun hd => hd.changes (by decide) (.inr h), fun hd => hd.changes (by decide) (.inl (by decide))⟩

/-! ### Bounds -/

section

variable {n m : Nat} {s t u : TokenStream} {fs gs : List Function} {e : ParseError}

theorem program_mono (hnm : n ≤ m) (h : program n s = some (.ok (fs, t))) :
    program m s = some (.ok (fs, t)) := by
  obtain ⟨ks, hks, _, hsame⟩ := (program_reads hnm s).ok fs t h
  exact hsame s t .start hks rfl

theorem program_mono_error (hnm : n ≤ m) (h : program n s = some (.error e)) :
    ∃ e', program m s = some (.error e') := by
  obtain ⟨ks, v, hks, _, _, hsame⟩ := (program_reads hnm s).error e h
  exact hsame s v .start hks rfl

theorem program_unique (h : program n s = some (.ok (fs, t))) (h' : program m s = some (.ok (gs, u))) :
    fs = gs := by
  have hn := program_mono (Nat.le_max_left n m) h
  have hm := program_mono (Nat.le_max_right n m) h'
  rw [hn] at hm
  cases hm
  rfl

/-- No bound lets a program be read that is refused under another one. -/
theorem not_program_of_error (h : program n s = some (.error e)) : program m s ≠ some (.ok (fs, t)) := by
  intro h'
  obtain ⟨e', he'⟩ := program_mono_error (Nat.le_max_left n m) h
  rw [program_mono (Nat.le_max_right n m) h'] at he'
  cases he'

end

end Grammar

/-! ### Texts -/

open Grammar

section

variable {text : String} {ks : List TokenKind} {fs : List Function}

theorem parse_of_program {r : Except ParseError (List Function × TokenStream)}
    (h : program (bound (TokenStream.ofText text)) (TokenStream.ofText text) = some r) :
    parse text = r.map (·.1) := by
  simp only [parse, h, Option.get_some]

theorem not_mem_of_readable {afterOperand : Bool} (h : readable afterOperand ks = true) :
    .endOfText ∉ ks := by
  induction ks generalizing afterOperand with
  | nil => simp
  | cons k ks ih =>
    simp only [readable, Bool.and_eq_true] at h
    rw [List.mem_cons, not_or]
    refine ⟨?_, ih h.2⟩
    rintro rfl
    exact absurd h.1 (by simp [TokenKind.fits])

/-- What is parsed is all tokens, and these are derived from the program. -/
theorem derives_of_parse (h : parse text = .ok fs) : ∃ ks,
    (TokenStream.ofText text).kinds? = some ks ∧ Derives .accepted (.program fs) ks := by
  obtain ⟨t, ht⟩ := program_of_parse h
  obtain ⟨ks, hks, hd, _⟩ := (program_reads (Nat.le_refl _) _).ok fs t ht
  refine ⟨ks, kinds?_eq_some_iff.2 ?_, hd⟩
  cases t with
  | endOfText l => exact ⟨l, hks⟩
  | failed e => cases head?_of_program ht
  | token u rest =>
    -- the end of the text would be a token of it
    obtain ⟨k, l⟩ := u
    obtain rfl : k = .endOfText := by simpa using head?_of_program ht
    exact absurd (by simp) (not_mem_of_readable (readable_of_leads (hks.trans leads_token)))

theorem parse_of_derives (h : (TokenStream.ofText text).kinds? = some ks)
    (hd : Derives .accepted (.program fs) ks) : parse text = .ok fs := by
  obtain ⟨l, hl⟩ := kinds?_eq_some_iff.1 h
  obtain ⟨m, hm⟩ := hd.read _ l hl
  have hm := hm m (Nat.le_refl m)
  -- the bound of the parser may be lower than the one that is enough for the derivation
  obtain ⟨r, hr⟩ := Option.isSome_iff_exists.1 (isSome_program (TokenStream.ofText text))
  rw [parse_of_program hr]
  cases r with
  | ok at' =>
    obtain ⟨gs, t⟩ := at'
    rw [program_unique hr hm]
    rfl
  | error e => exact absurd hm (not_program_of_error hr)

theorem parse_eq_ok_iff : parse text = .ok fs ↔ ∃ ks,
    (TokenStream.ofText text).kinds? = some ks ∧ Derives .accepted (.program fs) ks :=
  ⟨derives_of_parse, fun ⟨_, h, hd⟩ => parse_of_derives h hd⟩

/-- A text without a comma at the end of a list is parsed as it is derived. -/
theorem parse_iff_derives (h : (TokenStream.ofText text).kinds? = some ks)
    (hcomma : ¬ [.comma, .rightParen] <:+: ks) :
    parse text = .ok fs ↔ Derives .strict (.program fs) ks := by
  rw [← accepted_iff_strict hcomma, parse_eq_ok_iff]
  constructor
  · intro hparse
    obtain ⟨ls, hls, hd⟩ := hparse
    rw [h] at hls
    cases hls
    exact hd
  · exact fun hd => ⟨ks, h, hd⟩

/-- The loop counts from zero in steps of one. -/
theorem parse_iff_derives_defaults : ∃ ks,
    (TokenStream.ofText "DEF f(n) FOR i := i < n DO END; END;").kinds? = some ks ∧
    ¬ [.comma, .rightParen] <:+: ks ∧
    Derives .strict (.program [⟨"f", ["n"],
      [.forDo (.name "i") (.int 0) (.binary .less (.name "i") (.name "n")) (.int 1) []]⟩]) ks ∧
    parse "DEF f(n) FOR i := i < n DO END; END;" = .ok [⟨"f", ["n"],
      [.forDo (.name "i") (.int 0) (.binary .less (.name "i") (.name "n")) (.int 1) []]⟩] := by
  have hname : ∀ x, Derives .strict (.sum (.name x)) [.name x] :=
    fun x => .onlyProduct (.onlyAtom .name)
  have hless : Derives .strict (.expression (.binary .less (.name "i") (.name "n")))
      [.name "i", .binary .less, .name "n"] := .comparison rfl (hname "i") (hname "n")
  have hloop := Derives.forDo (.counter (.inr ⟨_, _, rfl⟩) (.onlySum (hname "i"))) (.condition hless)
    .noStatements
  have hprogram := Derives.moreFunctions (.function (f := "f") (.someParameters (.lastName (x := "n")))
    (.moreStatements hloop .noStatements)) .noFunctions
  have hks : (TokenStream.ofText "DEF f(n) FOR i := i < n DO END; END;").kinds? = some [.keyword .DEF,
      .name "f", .leftParen, .name "n", .rightParen, .keyword .FOR, .name "i", .assign, .name "i",
      .binary .less, .name "n", .keyword .DO, .keyword .END, .semicolon, .keyword .END, .semicolon] := by
    decide +kernel
  exact ⟨_, hks, by decide, hprogram, (parse_iff_derives hks (by decide)).2 hprogram⟩

/-- The documented grammar has a loop that counts in the word at an address, and it does not have a
comma after the last parameter. -/
theorem documented_grammar_differs :
    (∃ ks fs, (TokenStream.ofText "DEF f() FOR $p := 1 DO END; END;").kinds? = some ks ∧
      Derives .documented (.program fs) ks ∧ parse "DEF f() FOR $p := 1 DO END; END;" ≠ .ok fs) ∧
    ∃ ks fs, (TokenStream.ofText "DEF f(a,) END;").kinds? = some ks ∧
      parse "DEF f(a,) END;" = .ok fs ∧ ¬ Derives .documented (.program fs) ks := by
  constructor
  · have hone : Derives .documented (.expression (.int 1)) [.int 1] :=
      .onlySum (.onlyProduct (.onlyAtom .int))
    have hcounter : Derives .documented (.expression (.unary .dereference (.name "p")))
        [.unary .dereference, .name "p"] := .onlySum (.onlyProduct (.onlyAtom (.unary .name)))
    have hloop := Derives.forDo (.counter (.inl rfl) hcounter) (.condition hone) .noStatements
    have hprogram := Derives.moreFunctions (.function (f := "f") .noParameters
      (.moreStatements hloop .noStatements)) .noFunctions
    have hks : (TokenStream.ofText "DEF f() FOR $p := 1 DO END; END;").kinds? = some [.keyword .DEF,
        .name "f", .leftParen, .rightParen, .keyword .FOR, .unary .dereference, .name "p", .assign,
        .int 1, .keyword .DO, .keyword .END, .semicolon, .keyword .END, .semicolon] := by
      decide +kernel
    refine ⟨_, _, hks, hprogram, fun hparse => ?_⟩
    have hfails : (parse "DEF f() FOR $p := 1 DO END; END;").toOption.isNone = true := by decide +kernel
    rw [hparse] at hfails
    cases hfails
  · have hks : (TokenStream.ofText "DEF f(a,) END;").kinds? = some [.keyword .DEF, .name "f", .leftParen,
        .name "a", .comma, .rightParen, .keyword .END, .semicolon] := by decide +kernel
    have hprogram : Derives .accepted (.program [⟨"f", ["a"], []⟩]) [.keyword .DEF, .name "f",
        .leftParen, .name "a", .comma, .rightParen, .keyword .END, .semicolon] :=
      .moreFunctions (.function (.someParameters (.lastNameComma rfl)) .noStatements) .noFunctions
    refine ⟨_, _, hks, parse_of_derives hks hprogram, fun h => ?_⟩
    generalize hls : [TokenKind.keyword .DEF, .name "f", .leftParen, .name "a", .comma, .rightParen,
      .keyword .END, .semicolon] = ls at h
    -- a name would have to follow the comma
    cases h with
    | moreFunctions hf _ =>
      cases hf with
      | function hxs _ =>
        cases hxs with
        | someParameters hxs =>
          cases hxs with
          | lastName => simp at hls
          | lastNameComma hd => cases hd
          | moreNames hxs => cases hxs

end

end WordMachine.Source
