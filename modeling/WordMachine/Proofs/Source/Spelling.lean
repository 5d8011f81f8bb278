import WordMachine.Proofs.Source.Stream
import WordMachine.Text.Numeral

/-!
# Writing tokens

A token is written in one way, and tokens with spaces between them are read back as they were written.
There are two conditions: a name must be an identifier, and minus must be the operator that is read
after the token before it. The tokens of a text satisfy both.
-/

namespace WordMachine.Source

def isWordShaped (text : String) : Bool :=
  match text.toList with
  | [] => false
  | c :: cs => isWordStart c && cs.all isWordPart

/-- Whether a text is read as a name. -/
def isIdentifier (text : String) : Bool := isWordShaped text && (Keyword.ofText? text).isNone

namespace TokenKind

def text : TokenKind → String
  | int value => value.toNat.repr
  | name text => text
  | keyword k => k.text
  | unary op => String.singleton op.symbol
  | binary op => String.singleton op.symbol
  | semicolon => ";"
  | leftParen => "("
  | rightParen => ")"
  | comma => ","
  | assign => ":="
  | endOfText => ""

/-- Whether the text of a token is read as this token. The flag says whether it stands after an
operand. -/
def fits (afterOperand : Bool) : TokenKind → Bool
  | name text => isIdentifier text
  | unary op => op != .negate || !afterOperand
  | binary op => op != .subtract || afterOperand
  | endOfText => false
  | _ => true

end TokenKind

def readable : (afterOperand : Bool) → List TokenKind → Bool
  | _, [] => true
  | afterOperand, k :: ks => k.fits afterOperand && readable k.endsOperand ks

def write (ks : List TokenKind) : String := " ".intercalate (ks.map TokenKind.text)

/-! ### The tokens of a text -/

theorem isIdentifier_takeWhile {c : Char} {cs : List Char} (hc : isWordStart c = true)
    (hk : Keyword.ofText? (String.ofList ((c :: cs).takeWhile isWordPart)) = none) :
    isIdentifier (String.ofList ((c :: cs).takeWhile isWordPart)) = true := by
  rw [List.takeWhile_cons_of_pos (isWordPart_of_isWordStart hc)] at hk ⊢
  simp only [isIdentifier, isWordShaped, String.toList_ofList, hc, hk, List.all_takeWhile,
    Option.isNone_none, Bool.and_self]

theorem fits_wordToken {afterOperand : Bool} {c : Char} {cs : List Char} (hc : isWordStart c = true) :
    (wordToken (String.ofList ((c :: cs).takeWhile isWordPart))).fits afterOperand = true := by
  rw [wordToken]
  split
  · rfl
  · next hk => exact isIdentifier_takeWhile hc hk

theorem BinaryOp.symbol_of_ofSymbol? {c : Char} {op : BinaryOp} (h : ofSymbol? c = some op) :
    op.symbol = c := by
  simpa using List.find?_some h

theorem UnaryOp.symbol_of_ofSymbol? {c : Char} {op : UnaryOp} (h : ofSymbol? c = some op) :
    op.symbol = c := by
  simpa using List.find?_some h

theorem fits_symbolToken? {afterOperand : Bool} {c : Char} {k : TokenKind}
    (h : symbolToken? afterOperand c = some k) : k.fits afterOperand = true := by
  unfold symbolToken? at h
  split at h
  iterate 4
    cases h
    rfl
  · cases afterOperand <;> cases h <;> rfl
  · next hminus =>
    cases hb : BinaryOp.ofSymbol? c with
    | some op =>
      obtain rfl : .binary op = k := by simpa [hb] using h
      have hne : op ≠ .subtract := by
        rintro rfl
        exact hminus (BinaryOp.symbol_of_ofSymbol? hb).symm
      simp [TokenKind.fits, hne]
    | none =>
      cases hu : UnaryOp.ofSymbol? c with
      | none => simp [hb, hu] at h
      | some op =>
        obtain rfl : .unary op = k := by simpa [hb, hu] using h
        have hne : op ≠ .negate := by
          rintro rfl
          exact hminus (UnaryOp.symbol_of_ofSymbol? hu).symm
        simp [TokenKind.fits, hne]

theorem fits_readQuoted {afterOperand : Bool} {k after : Cursor} {kind : TokenKind}
    (h : readQuoted k = (.ok kind, after)) : kind.fits afterOperand = true := by
  unfold readQuoted at h
  split at h
  · cases h
  · split at h
    · cases h
    · split at h
      · cases h
        rfl
      · cases h

theorem fits_numberToken {afterOperand : Bool} {digits : List Char} {kind : TokenKind}
    (h : numberToken digits = .ok kind) : kind.fits afterOperand = true := by
  simp only [numberToken] at h
  split at h
  · cases h
    rfl
  · cases h

theorem fits_readToken {afterOperand : Bool} {c : Char} {cs : List Char} {l : Location} {after : Cursor}
    {kind : TokenKind} (h : readToken afterOperand c ⟨c :: cs, l⟩ = (.ok kind, after)) :
    kind.fits afterOperand = true := by
  unfold readToken at h
  split at h
  · exact fits_numberToken (Prod.mk.inj h).1
  · split at h
    · next hc =>
      cases h
      exact fits_wordToken hc
    · dsimp only at h
      split at h
      · exact fits_readQuoted h
      · split at h
        · cases h
          rfl
        · split at h
          · next t ht =>
            cases h
            exact fits_symbolToken? ht
          · cases h

theorem fits_readKind {afterOperand : Bool} {k after : Cursor} {kind : TokenKind}
    (h : readKind afterOperand k = (.ok kind, after)) (hk : kind ≠ .endOfText) :
    kind.fits afterOperand = true := by
  rcases k with ⟨_ | ⟨c, cs⟩, location⟩
  · cases h
    exact absurd rfl hk
  · exact fits_readToken h

theorem fits_read {l after : Lexer} {t : Token} (h : l.read = (.ok t, after))
    (ht : t.kind ≠ .endOfText) :
    t.kind.fits l.afterOperand = true ∧ after.afterOperand = t.kind.endsOperand := by
  unfold Lexer.read at h
  dsimp only at h
  split at h
  · next kind cursor hk =>
    cases h
    exact ⟨fits_readKind hk ht, rfl⟩
  · cases h

theorem readable_of_leads {l : Lexer} {ks : List TokenKind} {v : TokenStream}
    (h : Leads ks l.stream v) : readable l.afterOperand ks = true := by
  fun_induction Lexer.stream l generalizing ks with
  | case1 l e after hr =>
    cases ks with
    | nil => rfl
    | cons k ks => simp [leads_cons] at h
  | case2 l t after hr ht =>
    cases ks with
    | nil => rfl
    | cons k ks => simp [leads_cons] at h
  | case3 l t after hr ht hlt ih =>
    cases ks with
    | nil => rfl
    | cons k ks =>
      obtain ⟨_, _, he, h⟩ := h
      cases he
      obtain ⟨hfits, hafter⟩ := fits_read hr ht
      simp only [readable, hfits, Bool.true_and]
      rw [← hafter]
      exact ih h

/-! ### Reading a token back -/

def Boundary (rest : List Char) : Prop := ∀ c ∈ rest.head?, c = ' '

/-- The text ends, or a character is next of which the condition does not hold. -/
def Stops (p : Char → Bool) (rest : List Char) : Prop := ∀ c ∈ rest.head?, p c = false

theorem Boundary.stops {p : Char → Bool} (hp : p ' ' = false) {rest : List Char} (h : Boundary rest) :
    Stops p rest := by
  intro c hc
  rwa [h c hc]

theorem takeWhile_of_stops {p : Char → Bool} {cs rest : List Char} (hcs : ∀ c ∈ cs, p c = true)
    (hr : Stops p rest) : (cs ++ rest).takeWhile p = cs ∧ (cs ++ rest).dropWhile p = rest := by
  rw [List.takeWhile_append_of_pos hcs, List.dropWhile_append_of_pos hcs]
  cases rest with
  | nil => simp
  | cons c rest => simp [hr c rfl]

theorem isDigit_iff {c : Char} : c.isDigit = true ↔ 48 ≤ c.toNat ∧ c.toNat ≤ 57 := by
  simp [Char.isDigit, UInt32.le_iff_toNat_le]

theorem isWordStart_iff {c : Char} : isWordStart c = true ↔
    (65 ≤ c.toNat ∧ c.toNat ≤ 90) ∨ (97 ≤ c.toNat ∧ c.toNat ≤ 122) ∨ c.toNat = 95 := by
  have ranges : isWordStart c = ((decide (c.val ≥ 65 ∧ c.val ≤ 90) ||
      decide (c.val ≥ 97) && decide (c.val ≤ 122)) || c == '_') := rfl
  simp [ranges, UInt32.le_iff_toNat_le, Char.ext_iff, ← UInt32.toNat_inj, or_assoc]

def isSolid (c : Char) : Bool := c != '#' && !isBlank c

theorem skipGapFrom_solid {c : Char} (h : isSolid c = true) (cs : List Char) (l : Location) :
    Cursor.skipGapFrom l false (c :: cs) = ⟨c :: cs, l⟩ := by
  simp only [isSolid, Bool.and_eq_true, bne_iff_ne, ne_eq, Bool.not_eq_true'] at h
  simp [Cursor.skipGapFrom, h.1, h.2]

theorem isSolid_of_isWordPart {c : Char} (h : isWordPart c = true) : isSolid c = true := by
  have hrange : isWordStart c = true ∨ c.isDigit = true := by
    simp only [isWordPart, isWordStart, Char.isAlphanum, Bool.or_eq_true] at h ⊢
    grind
  rw [isWordStart_iff, isDigit_iff] at hrange
  rw [isSolid, Bool.and_eq_true, bne_iff_ne, Bool.not_eq_true']
  constructor
  · rintro rfl
    revert hrange
    decide
  · simp only [isBlank, Bool.or_eq_false_iff, Bool.and_eq_false_iff, decide_eq_false_iff_not,
      beq_eq_false_iff_ne]
    omega

theorem not_isDigit_of_isWordStart {c : Char} (h : isWordStart c = true) : c.isDigit = false := by
  rw [isWordStart_iff] at h
  rw [← Bool.not_eq_true, isDigit_iff]
  omega

section

variable {afterOperand : Bool} {rest : List Char} {l : Location}

theorem readToken_int (hr : Boundary rest) (w : Word) : ∃ c cs l',
    w.toNat.repr.toList = c :: cs ∧ isSolid c = true ∧
      readToken afterOperand c ⟨c :: (cs ++ rest), l⟩ = (.ok (.int w), ⟨rest, l'⟩) := by
  have hdigits : ∀ c ∈ Nat.toDigits 10 w.toNat, c.isDigit = true := fun c =>
    Nat.isDigit_of_mem_toDigits (by omega) (by omega)
  rw [Nat.toList_repr]
  cases hd : Nat.toDigits 10 w.toNat with
  | nil => exact absurd hd Nat.toDigits_ne_nil
  | cons c cs =>
    rw [hd] at hdigits
    have hc := hdigits c List.mem_cons_self
    obtain ⟨htake, hdrop⟩ := takeWhile_of_stops hdigits (hr.stops (by decide))
    have hsolid : isSolid c = true := isSolid_of_isWordPart (by simp [isWordPart, Char.isAlphanum, hc])
    refine ⟨c, cs, l.through (c :: cs), rfl, hsolid, ?_⟩
    rw [readToken, if_pos hc]
    simp only [Cursor.takeWhile, ← List.cons_append, htake, hdrop]
    rw [numberToken, ← hd, Nat.ofDigitChars_toDigits (by omega) (by omega)]
    simp only [if_pos (UInt32.toNat_lt w), UInt32.ofNat_toNat]

theorem readToken_word (hr : Stops isWordPart rest) {x : String} {k : TokenKind} (hx : isWordShaped x = true)
    (hk : wordToken x = k) : ∃ c cs l', x.toList = c :: cs ∧ isSolid c = true ∧
      readToken afterOperand c ⟨c :: (cs ++ rest), l⟩ = (.ok k, ⟨rest, l'⟩) := by
  rw [isWordShaped] at hx
  split at hx
  · cases hx
  · next c cs hcs =>
    rw [Bool.and_eq_true, List.all_eq_true] at hx
    have hword : ∀ d ∈ c :: cs, isWordPart d = true :=
      List.forall_mem_cons.2 ⟨isWordPart_of_isWordStart hx.1, hx.2⟩
    obtain ⟨htake, hdrop⟩ := takeWhile_of_stops hword hr
    refine ⟨c, cs, l.through (c :: cs), hcs, isSolid_of_isWordPart (hword c List.mem_cons_self), ?_⟩
    rw [readToken, if_neg (by simp [not_isDigit_of_isWordStart hx.1]), if_pos hx.1]
    simp only [Cursor.takeWhile, ← List.cons_append, htake, hdrop]
    rw [← hcs, String.ofList_toList, hk]

theorem readToken_symbol {c : Char} {k : TokenKind} (hw : isWordPart c = false) (hq : c ≠ '\x27')
    (hcolon : c ≠ ':') (hk : symbolToken? afterOperand c = some k) :
    readToken afterOperand c ⟨c :: rest, l⟩ = (.ok k, ⟨rest, l.after c⟩) := by
  have hd : c.isDigit = false := by
    simp only [isWordPart, Char.isAlphanum, Bool.or_eq_false_iff] at hw
    exact hw.1.2
  have hs : isWordStart c = false := by
    cases h : isWordStart c with
    | false => rfl
    | true =>
      rw [isWordPart_of_isWordStart h] at hw
      exact hw
  rw [readToken, if_neg (by simp [hd]), if_neg (by simp [hs])]
  simp only [Cursor.next_cons, if_neg hq, hcolon, false_and, if_false, hk]

theorem isWordShaped_text (k : Keyword) : isWordShaped k.text = true := by
  cases k <;> decide

theorem wordToken_text (k : Keyword) : wordToken k.text = .keyword k := by
  rw [wordToken, Keyword.ofText?_text]

/-- The text of a token is read as this token, and what follows it is left. -/
theorem readToken_text (hr : Boundary rest) {k : TokenKind} (hk : k.fits afterOperand = true) :
    ∃ c cs l', k.text.toList = c :: cs ∧ isSolid c = true ∧
      readToken afterOperand c ⟨c :: (cs ++ rest), l⟩ = (.ok k, ⟨rest, l'⟩) := by
  have hsymbol : ∀ c, isWordPart c = false → c ≠ '\x27' → c ≠ ':' → isSolid c = true →
      symbolToken? afterOperand c = some k → ∃ c' cs l', (String.singleton c).toList = c' :: cs ∧
        isSolid c' = true ∧ readToken afterOperand c' ⟨c' :: (cs ++ rest), l⟩ = (.ok k, ⟨rest, l'⟩) :=
    fun c hw hq hcolon hsolid ht => ⟨c, [], _, by simp, hsolid, readToken_symbol hw hq hcolon ht⟩
  cases k with
  | int w => exact readToken_int hr w
  | name x =>
    rw [TokenKind.fits, isIdentifier, Bool.and_eq_true, Option.isNone_iff_eq_none] at hk
    have hword : wordToken x = .name x := by rw [wordToken, hk.2]
    exact readToken_word (hr.stops (by decide)) hk.1 hword
  | keyword k => exact readToken_word (hr.stops (by decide)) (isWordShaped_text k) (wordToken_text k)
  | unary op =>
    cases op <;> first
      | exact hsymbol _ (by decide) (by decide) (by decide) (by decide) rfl
      | cases afterOperand
        · exact hsymbol _ (by decide) (by decide) (by decide) (by decide) rfl
        · cases hk
  | binary op =>
    cases op <;> first
      | exact hsymbol _ (by decide) (by decide) (by decide) (by decide) rfl
      | cases afterOperand
        · cases hk
        · exact hsymbol _ (by decide) (by decide) (by decide) (by decide) rfl
  | semicolon => exact hsymbol ';' (by decide) (by decide) (by decide) (by decide) rfl
  | leftParen => exact hsymbol '(' (by decide) (by decide) (by decide) (by decide) rfl
  | rightParen => exact hsymbol ')' (by decide) (by decide) (by decide) (by decide) rfl
  | comma => exact hsymbol ',' (by decide) (by decide) (by decide) (by decide) rfl
  | assign => exact ⟨':', ['='], _, rfl, by decide, rfl⟩
  | endOfText => cases hk

end

/-! ### Reading tokens back -/

theorem stream_of_readKind {l : Lexer} {k : TokenKind} {start after : Cursor}
    (hstart : l.cursor.skipGap = start) (h : readKind l.afterOperand start = (.ok k, after)) :
    l.stream = if k = .endOfText then .endOfText start.location else
      .token ⟨k, start.location⟩ (Lexer.stream ⟨after, k.endsOperand, none, start.location⟩) := by
  subst hstart
  have hread : l.read = (.ok ⟨k, l.cursor.skipGap.location⟩,
      ⟨after, k.endsOperand, none, l.cursor.skipGap.location⟩) := by
    simp only [Lexer.read, h]
  rw [Lexer.stream]
  split
  · next e _ he =>
    rw [hread] at he
    cases he
  · next t _ he =>
    rw [hread] at he
    cases he
    split <;> rfl

def spaced (ks : List TokenKind) : List Char := ks.flatMap fun k => ' ' :: k.text.toList

theorem boundary_spaced (ks : List TokenKind) : Boundary (spaced ks) := by
  intro c hc
  cases ks with
  | nil => cases hc
  | cons k ks => simpa [spaced] using hc.symm

theorem toList_write_cons (k : TokenKind) (ks : List TokenKind) :
    (write (k :: ks)).toList = k.text.toList ++ spaced ks := by
  induction ks generalizing k with
  | nil => simp [write, spaced]
  | cons k' ks ih =>
    have h : (write (k :: k' :: ks)).toList =
        k.text.toList ++ [' '] ++ (write (k' :: ks)).toList := by
      simp [write, String.toList_intercalate]
    rw [h, ih]
    simp [spaced]

theorem stream_text {l : Lexer} {k : TokenKind} {ks : List TokenKind} {here : Location}
    (hk : k.fits l.afterOperand = true)
    (hstart : ∀ c cs, k.text.toList = c :: cs → isSolid c = true →
      l.cursor.skipGap = ⟨k.text.toList ++ spaced ks, here⟩) :
    ∃ there, l.stream =
      .token ⟨k, here⟩ (Lexer.stream ⟨⟨spaced ks, there⟩, k.endsOperand, none, here⟩) := by
  obtain ⟨c, cs, there, htext, hsolid, hread⟩ := readToken_text (l := here) (boundary_spaced ks) hk
  have hskip := hstart c cs htext hsolid
  have hne : k ≠ .endOfText := by
    rintro rfl
    cases hk
  refine ⟨there, ?_⟩
  rw [stream_of_readKind (k := k) hskip, if_neg hne]
  rw [htext]
  exact hread

theorem kinds?_spaced {ks : List TokenKind} {afterOperand : Bool}
    (h : readable afterOperand ks = true) (here there : Location) :
    (Lexer.stream ⟨⟨spaced ks, here⟩, afterOperand, none, there⟩).kinds? = some ks := by
  induction ks generalizing afterOperand here there with
  | nil =>
    rw [stream_of_readKind (k := .endOfText) rfl rfl]
    rfl
  | cons k ks ih =>
    simp only [readable, Bool.and_eq_true] at h
    have hskip : ∀ c cs, k.text.toList = c :: cs → isSolid c = true →
        Cursor.skipGap ⟨spaced (k :: ks), here⟩ = ⟨k.text.toList ++ spaced ks, here.after ' '⟩ := by
      intro c cs htext hsolid
      rw [htext, List.cons_append, ← skipGapFrom_solid hsolid]
      simp [Cursor.skipGap, spaced, htext, Cursor.skipGapFrom, isBlank]
    obtain ⟨l, hl⟩ := stream_text (l := ⟨⟨spaced (k :: ks), here⟩, afterOperand, none, there⟩) h.1 hskip
    rw [hl, TokenStream.kinds?, ih h.2]
    rfl

/-- Tokens are read back from their text. -/
theorem kinds?_write {ks : List TokenKind} (h : readable false ks = true) :
    (TokenStream.ofText (write ks)).kinds? = some ks := by
  cases ks with
  | nil =>
    rw [TokenStream.ofText, stream_of_readKind (k := .endOfText) rfl rfl]
    rfl
  | cons k ks =>
    simp only [readable, Bool.and_eq_true] at h
    have hskip : ∀ c cs, k.text.toList = c :: cs → isSolid c = true →
        (Cursor.ofText (write (k :: ks))).skipGap = ⟨k.text.toList ++ spaced ks, .start⟩ := by
      intro c cs htext hsolid
      rw [Cursor.ofText, toList_write_cons, htext, List.cons_append]
      exact skipGapFrom_solid hsolid _ _
    obtain ⟨l, hl⟩ := stream_text (l := .ofText (write (k :: ks))) h.1 hskip
    rw [TokenStream.ofText, hl, TokenStream.kinds?, kinds?_spaced h.2]
    rfl

end WordMachine.Source
