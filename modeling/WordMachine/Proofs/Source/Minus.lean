import WordMachine.Proofs.Source.RoundTrip
import WordMachine.Proofs.Splits

/-!
# Minus in derived tokens

A derivation says of each minus whether it negates an operand or subtracts one; a text only has the
character. What is read from the text of tokens is their `reread`: there minus subtracts just after a
token that can end an operand. For the tokens of a program this is what the derivation says, except at
one seam. The parenthesis that closes the parameters of a function can end an operand, and does not: a
minus right after it begins the body, and is read as subtraction.
-/

namespace WordMachine.Source

open Grammar

/-! ### What is read from the text of tokens -/

/-- The token that is read from the text of a token. -/
def TokenKind.reread (afterOperand : Bool) : TokenKind → TokenKind
  | unary .negate => if afterOperand then binary .subtract else unary .negate
  | binary .subtract => if afterOperand then binary .subtract else unary .negate
  | k => k

/-- The tokens that are read from the text of tokens. -/
def reread : (afterOperand : Bool) → List TokenKind → List TokenKind
  | _, [] => []
  | afterOperand, k :: ks => k.reread afterOperand :: reread k.endsOperand ks

def flagAfter (afterOperand : Bool) : List TokenKind → Bool
  | [] => afterOperand
  | k :: ks => flagAfter k.endsOperand ks

section

variable {b : Bool} {k : TokenKind} {ks ls before after : List TokenKind}

theorem reread_append : reread b (ks ++ ls) = reread b ks ++ reread (flagAfter b ks) ls := by
  induction ks generalizing b with
  | nil => rfl
  | cons k ks ih => rw [List.cons_append, reread, ih, reread, flagAfter, List.cons_append]

theorem flagAfter_append : flagAfter b (ks ++ ls) = flagAfter (flagAfter b ks) ls := by
  induction ks generalizing b with
  | nil => rfl
  | cons k ks ih => exact ih

theorem length_reread : (reread b ks).length = ks.length := by
  induction ks generalizing b with
  | nil => rfl
  | cons k ks ih => rw [reread, List.length_cons, ih, List.length_cons]

theorem getElem?_reread : (reread b (before ++ k :: after))[before.length]? =
    some (k.reread (flagAfter b before)) := by
  rw [reread_append, ← length_reread (b := b), List.getElem?_append_right (Nat.le_refl _),
    Nat.sub_self]
  rfl

theorem reread_of_getElem? (h : reread b (before ++ k :: after) = before ++ k :: after) :
    k.reread (flagAfter b before) = k := by
  have hk : (before ++ k :: after)[before.length]? = some (k.reread (flagAfter b before)) := by
    rw [← getElem?_reread, h]
  rw [List.getElem?_append_right (Nat.le_refl _), Nat.sub_self] at hk
  exact (Option.some.inj hk).symm

theorem text_reread : (k.reread b).text = k.text := by
  cases k with
  | unary op => cases op <;> cases b <;> rfl
  | binary op => cases op <;> cases b <;> rfl
  | _ => rfl

theorem endsOperand_reread : (k.reread b).endsOperand = k.endsOperand := by
  cases k with
  | unary op => cases op <;> cases b <;> rfl
  | binary op => cases op <;> cases b <;> rfl
  | _ => rfl

theorem fits_reread (hk : ∀ x, k = .name x → isIdentifier x = true) (hend : k ≠ .endOfText) :
    (k.reread b).fits b = true := by
  cases k with
  | unary op => cases op <;> cases b <;> rfl
  | binary op => cases op <;> cases b <;> rfl
  | name x => exact hk x rfl
  | endOfText => exact absurd rfl hend
  | _ => rfl

theorem write_reread : write (reread b ks) = write ks := by
  have htexts : (reread b ks).map TokenKind.text = ks.map TokenKind.text := by
    induction ks generalizing b with
    | nil => rfl
    | cons k ks ih => rw [reread, List.map_cons, text_reread, ih, List.map_cons]
  rw [write, htexts, write]

theorem readable_reread (hks : Identified ks) (hend : .endOfText ∉ ks) :
    readable b (reread b ks) = true := by
  induction ks generalizing b with
  | nil => rfl
  | cons k ks ih =>
    rw [List.mem_cons, not_or] at hend
    have hk : (k.reread b).fits b = true :=
      fits_reread (fun x hx => hks x (hx ▸ List.mem_cons_self)) (Ne.symm hend.1)
    rw [reread, readable, hk, endsOperand_reread, ih hks.tail hend.2, Bool.and_self]

theorem kinds?_write_eq_reread (hks : Identified ks) (hend : .endOfText ∉ ks) :
    (TokenStream.ofText (write ks)).kinds? = some (reread false ks) := by
  rw [← write_reread (b := false)]
  exact kinds?_write (readable_reread hks hend)

end

/-! ### Inside phrases -/

section

variable {b : Bool} {ks ls : List TokenKind}

@[simp] theorem reread_int {w : Word} : reread b (.int w :: ks) = .int w :: reread true ks := rfl

@[simp] theorem reread_name {x : String} : reread b (.name x :: ks) = .name x :: reread true ks := rfl

@[simp] theorem reread_keyword {k : Keyword} :
    reread b (.keyword k :: ks) = .keyword k :: reread false ks := rfl

@[simp] theorem reread_unary {op : UnaryOp} :
    reread false (.unary op :: ks) = .unary op :: reread false ks := by
  cases op <;> rfl

@[simp] theorem reread_binary {op : BinaryOp} :
    reread true (.binary op :: ks) = .binary op :: reread false ks := by
  cases op <;> rfl

@[simp] theorem reread_semicolon : reread b (.semicolon :: ks) = .semicolon :: reread false ks := rfl

@[simp] theorem reread_leftParen : reread b (.leftParen :: ks) = .leftParen :: reread false ks := rfl

@[simp] theorem reread_rightParen : reread b (.rightParen :: ks) = .rightParen :: reread true ks := rfl

@[simp] theorem reread_comma : reread b (.comma :: ks) = .comma :: reread false ks := rfl

@[simp] theorem reread_assign : reread b (.assign :: ks) = .assign :: reread false ks := rfl

/-- Where no operand has ended before it, the tokens of a phrase are reread as they are. An operand
ends with an expression, and none with a statement. -/
def Grammar.Phrase.Rereads : Phrase → List TokenKind → Prop
  | expression _, ks | sum _, ks | product _, ks | atom _, ks | counter _, ks | range .., ks =>
    ∀ ls, reread false (ks ++ ls) = ks ++ reread true ls
  | items _, ks | arguments _, ks | names _, ks | parameters _, ks =>
    ∀ ls, reread false (ks ++ .rightParen :: ls) = ks ++ .rightParen :: reread true ls
  | statement _, ks | block _, ks => ∀ ls, reread false (ks ++ ls) = ks ++ reread false ls
  | function _, _ | program _, _ => True

theorem Grammar.Derives.rereads {d : Dialect} {p : Phrase} (h : Derives d p ks) : p.Rereads ks := by
  induction h with
  | onlySum _ ih | onlyProduct _ ih | onlyAtom _ ih | counter _ _ ih | condition _ ih => exact ih
  | someArguments _ ih | someParameters _ ih => exact ih
  | comparison _ _ _ ihl ihr | additive _ _ _ ihl ihr | multiplicative _ _ _ ihl ihr =>
    intro ls
    simp [ihl _, ihr _]
  | unary _ ih | parens _ ih =>
    intro ls
    simp [ih _]
  | int | name | noArguments | noParameters | lastName | lastNameComma | noStatements =>
    exact fun ls => rfl
  | retNothing | breakLoop | continueLoop => exact fun ls => rfl
  | call _ ih =>
    intro ls
    simp [ih _]
  | lastItem _ ih | lastItemComma _ _ ih =>
    intro ls
    simp [ih _]
  | moreItems _ _ ih ihs | startCondition _ _ ih ihs | assign _ _ ih ihs =>
    intro ls
    simp [ih _, ihs _]
  | startConditionStep _ _ _ ihstart ih ihstep =>
    intro ls
    simp [ihstart _, ih _, ihstep _]
  | ifOnly _ _ ih ihbody | whileDo _ _ ih ihbody =>
    intro ls
    simp [ih _, ihbody _]
  | ifElse _ _ _ ih ihbody ihrest | forDo _ _ _ ih ihrest ihbody =>
    intro ls
    simp [ih _, ihbody _, ihrest _]
  | ret _ ih | exec _ ih =>
    intro ls
    simp [ih _]
  | moreStatements _ _ ih ihs =>
    intro ls
    simp [ih _, ihs _]
  | moreNames _ ih =>
    intro ls
    simp [ih _]
  | function | noFunctions | moreFunctions => trivial

theorem Grammar.Derives.endOfText_not_mem {d : Dialect} {p : Phrase} (h : Derives d p ks) :
    .endOfText ∉ ks := by
  induction h with
  | _ => simp_all

end

/-! ### The seam -/

/-- The tokens of a program as far as the end of the parameters of a function. -/
def Grammar.Heads (d : Dialect) (ks : List TokenKind) : Prop :=
  ∃ fs f xs before ps, Derives d (.program fs) before ∧ Derives d (.parameters xs) ps ∧
    ks = before ++ .keyword .DEF :: .name f :: .leftParen :: (ps ++ [.rightParen])

/-- The body of a function begins with a minus that negates. -/
def Grammar.BodyMinus (d : Dialect) (ks : List TokenKind) : Prop :=
  ∃ before after, ks = before ++ .unary .negate :: after ∧ Heads d before

section

variable {d : Dialect} {k : TokenKind} {ks ls before after : List TokenKind}

theorem reread_true (k : TokenKind) : k.reread true = k ∨ k = .unary .negate := by
  cases k with
  | unary op => cases op <;> first | exact .inl rfl | exact .inr rfl
  | binary op => cases op <;> exact .inl rfl
  | _ => exact .inl rfl

theorem flagAfter_header {f : String} {ps : List TokenKind} {b : Bool} :
    flagAfter b (.keyword .DEF :: .name f :: .leftParen :: (ps ++ [.rightParen])) = true := by
  simp only [flagAfter, flagAfter_append]
  rfl

theorem Grammar.Heads.flagAfter_eq {b : Bool} (h : Heads d before) : flagAfter b before = true := by
  obtain ⟨fs, f, xs, front, ps, _, _, rfl⟩ := h
  rw [flagAfter_append, flagAfter_header]

theorem Grammar.Heads.append {f : Function} (hf : Derives d (.function f) ks) (h : Heads d ls) :
    Heads d (ks ++ ls) := by
  obtain ⟨fs, g, xs, front, ps, hfs, hxs, rfl⟩ := h
  exact ⟨f :: fs, g, xs, ks ++ front, ps, .moreFunctions hf hfs, hxs, by rw [List.append_assoc]⟩

/-- In a function only the token after the parameters can change. -/
theorem Grammar.Derives.reread_function {f : Function} (h : Derives d (.function f) ks)
    (hks : ks = before ++ k :: after) :
    k.reread (flagAfter false before) = k ∨ k = .unary .negate ∧ Heads d before := by
  cases h with
  | @function f xs body ps ss hps hss =>
    have hhead : reread false (.keyword .DEF :: .name f :: .leftParen :: (ps ++ [.rightParen])) =
        .keyword .DEF :: .name f :: .leftParen :: (ps ++ [.rightParen]) := by
      simp only [reread_keyword, reread_name, reread_leftParen]
      have hnil := hps.rereads []
      rw [hnil]
      rfl
    have htail : reread false (ss ++ [.keyword .END, .semicolon]) = ss ++ [.keyword .END, .semicolon] :=
      hss.rereads _
    have hsplit : (.keyword .DEF :: .name f :: .leftParen :: (ps ++ [.rightParen])) ++
        (ss ++ [.keyword .END, .semicolon]) = before ++ k :: after := by
      rw [← hks]
      simp
    rcases append_eq_append_cons hsplit with ⟨rest, hin, _⟩ | ⟨rest, rfl, hin⟩
    · rw [hin] at hhead
      exact .inl (reread_of_getElem? hhead)
    · rw [flagAfter_append]
      cases rest with
      | nil =>
        have hheads : Heads d (.keyword .DEF :: .name f :: .leftParen :: (ps ++ [.rightParen])) :=
          ⟨[], f, xs, [], ps, .noFunctions, hps, rfl⟩
        rw [List.append_nil, flagAfter, flagAfter_header]
        exact (reread_true k).imp_right fun hk => ⟨hk, hheads⟩
      | cons k' rest =>
        -- the flag before a later token of the body depends on the body alone
        rw [hin] at htail
        have hk : k.reread (flagAfter false (k' :: rest)) = k := reread_of_getElem? htail
        exact .inl hk

theorem Grammar.Derives.reread_program {fs : List Function} (h : Derives d (.program fs) ks)
    (hks : ks = before ++ k :: after) :
    k.reread (flagAfter false before) = k ∨ k = .unary .negate ∧ Heads d before := by
  induction fs generalizing ks before with
  | nil =>
    cases h
    cases before <;> cases hks
  | cons f fs ih =>
    cases h with
    | @moreFunctions _ _ ks ls hf hfs =>
      rcases append_eq_append_cons hks with ⟨rest, hin, _⟩ | ⟨rest, rfl, hin⟩
      · exact hf.reread_function hin
      · have hend : flagAfter false ks = false := by
          cases hf
          simp only [flagAfter, flagAfter_append]
          rfl
        rw [flagAfter_append, hend]
        exact (ih hfs hin).imp_right fun hk => ⟨hk.1, hk.2.append hf⟩

/-- The tokens of a program are read back from their text if no function body begins with a minus.
A minus that begins a body negates in the derivation and subtracts in what is read; every other token
is read as it is derived, each minus among them. -/
theorem written_tokens_read_back {fs : List Function} (h : Derives d (.program fs) ks) (hks : Identified ks) :
    ((TokenStream.ofText (write ks)).kinds? = some ks ↔ ¬BodyMinus d ks) ∧
    ∃ ls, (TokenStream.ofText (write ks)).kinds? = some ls ∧ ls.length = ks.length ∧
      ∀ before k after, ks = before ++ k :: after →
        (k = .unary .negate ∧ Heads d before → ls[before.length]? = some (.binary .subtract)) ∧
        (¬(k = .unary .negate ∧ Heads d before) → ls[before.length]? = some k) := by
  have hread := kinds?_write_eq_reread hks h.endOfText_not_mem
  have hplaces : ∀ before k after, ks = before ++ k :: after →
      (k = .unary .negate ∧ Heads d before →
        (reread false ks)[before.length]? = some (.binary .subtract)) ∧
      (¬(k = .unary .negate ∧ Heads d before) → (reread false ks)[before.length]? = some k) := by
    intro before k after hsplit
    have hk := h.reread_program hsplit
    rw [hsplit, getElem?_reread]
    refine ⟨?_, fun hne => congrArg some (hk.resolve_right hne)⟩
    rintro ⟨rfl, hheads⟩
    rw [hheads.flagAfter_eq]
    rfl
  refine ⟨?_, reread false ks, hread, length_reread, hplaces⟩
  rw [hread, Option.some_inj]
  constructor
  · rintro hsame ⟨before, after, hsplit, hheads⟩
    have hminus := (hplaces before _ after hsplit).1 ⟨rfl, hheads⟩
    rw [hsame, hsplit, List.getElem?_append_right (Nat.le_refl _), Nat.sub_self] at hminus
    cases hminus
  · intro hno
    apply List.ext_getElem (length_reread)
    intro n hn hn'
    have hsplit : ks = ks.take n ++ ks[n] :: ks.drop (n + 1) := by simp
    have hlen : (ks.take n).length = n := List.length_take_of_le (Nat.le_of_lt hn')
    have hsame := (hplaces _ _ _ hsplit).2 fun hk => hno ⟨_, _, hk.1 ▸ hsplit, hk.2⟩
    rw [hlen, List.getElem?_eq_getElem hn] at hsame
    exact Option.some.inj hsame

end

/-- Behind RETURN a minus negates, and behind a name it subtracts. -/
theorem written_tokens_read_back_return : ∃ ks fs, Derives .documented (.program fs) ks ∧ Identified ks ∧
    ¬BodyMinus .documented ks ∧ (TokenStream.ofText "DEF f ( ) RETURN - a - 1 ; END ;").kinds? = some ks ∧
    ks = [.keyword .DEF, .name "f", .leftParen, .rightParen, .keyword .RETURN, .unary .negate, .name "a",
      .binary .subtract, .int 1, .semicolon, .keyword .END, .semicolon] := by
  have hleft : Derives .documented (.sum (.unary .negate (.name "a"))) [.unary .negate, .name "a"] :=
    .onlyProduct (.onlyAtom (.unary .name))
  have hvalue : Derives .documented (.expression (.binary .subtract (.unary .negate (.name "a"))
      (.int 1))) [.unary .negate, .name "a", .binary .subtract, .int 1] :=
    .onlySum (.additive rfl hleft (.onlyAtom .int))
  have hprogram := Derives.moreFunctions (.function (f := "f") .noParameters
    (.moreStatements (.ret hvalue) .noStatements)) .noFunctions
  have hreadable : readable false [.keyword .DEF, .name "f", .leftParen, .rightParen,
      .keyword .RETURN, .unary .negate, .name "a", .binary .subtract, .int 1, .semicolon,
      .keyword .END, .semicolon] = true := by decide +kernel
  have hread : (TokenStream.ofText "DEF f ( ) RETURN - a - 1 ; END ;").kinds? = some [.keyword .DEF,
      .name "f", .leftParen, .rightParen, .keyword .RETURN, .unary .negate, .name "a",
      .binary .subtract, .int 1, .semicolon, .keyword .END, .semicolon] := by decide +kernel
  have htext : write [.keyword .DEF, .name "f", .leftParen, .rightParen, .keyword .RETURN,
      .unary .negate, .name "a", .binary .subtract, .int 1, .semicolon, .keyword .END, .semicolon] =
      "DEF f ( ) RETURN - a - 1 ; END ;" := by decide +kernel
  have hnames := identified_of_readable hreadable
  exact ⟨_, _, hprogram, hnames,
    (written_tokens_read_back hprogram hnames).1.1 ((congrArg _ (congrArg _ htext)).trans hread), hread, rfl⟩

/-- A body may begin with a minus that negates, and that minus is read as subtraction. -/
theorem minus_begins_body : ∃ ks fs, Derives .documented (.program fs) ks ∧ Identified ks ∧
    write ks = "DEF f ( ) - x ; END ;" ∧ ks = [.keyword .DEF, .name "f", .leftParen, .rightParen,
      .unary .negate, .name "x", .semicolon, .keyword .END, .semicolon] ∧
    (TokenStream.ofText "DEF f ( ) - x ; END ;").kinds? = some [.keyword .DEF, .name "f", .leftParen,
      .rightParen, .binary .subtract, .name "x", .semicolon, .keyword .END, .semicolon] ∧
    (TokenStream.ofText "DEF f ( ) - x ; END ;").kinds? ≠ some ks := by
  have hvalue : Derives .documented (.expression (.unary .negate (.name "x")))
      [.unary .negate, .name "x"] := .onlySum (.onlyProduct (.onlyAtom (.unary .name)))
  have hprogram := Derives.moreFunctions (.function (f := "f") .noParameters
    (.moreStatements (.exec hvalue) .noStatements)) .noFunctions
  have hnames : Identified [.keyword .DEF, .name "f", .leftParen, .rightParen, .unary .negate,
      .name "x", .semicolon, .keyword .END, .semicolon] := by
    intro x hx
    simp only [List.mem_cons, reduceCtorEq, TokenKind.name.injEq, List.not_mem_nil, or_false,
      false_or] at hx
    rcases hx with rfl | rfl <;> decide +kernel
  exact ⟨_, _, hprogram, hnames, by decide +kernel, rfl, by decide +kernel, by decide +kernel⟩

end WordMachine.Source
