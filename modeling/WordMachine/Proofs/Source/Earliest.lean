import Mathlib.Control.Monad.Basic
import WordMachine.Proofs.Source.Acceptance
import WordMachine.Proofs.Source.Places

/-!
# Errors are reported at the earliest token

Where a text is refused, the tokens before the error begin an accepted program, and with the token at the
error they begin none. The first holds because a parser fails only where something could go on, and what
it needs to go on can be written. The second holds because it does the same on every text that begins
with the same tokens.
-/

namespace WordMachine.Source

open Grammar

/-- The tokens begin those of an accepted text, the end of the text counted as one. -/
def Viable (ks : List TokenKind) : Prop :=
  ∃ text fs kinds, parse text = .ok fs ∧ (TokenStream.ofText text).kinds? = some kinds ∧
    ks <+: kinds ++ [.endOfText]

section

variable {k : TokenKind} {ks ls : List TokenKind} {fs : List Function}

theorem fits_of_harmless (h : k.harmless = true) (afterOperand : Bool) : k.fits afterOperand = true := by
  cases k with
  | name x =>
    obtain rfl : x = "x" := by simpa [TokenKind.harmless] using h
    have hx : isIdentifier "x" = true := by decide +kernel
    exact hx
  | unary | binary | endOfText => cases h
  | _ => rfl

theorem readable_of_harmless (h : ks.all TokenKind.harmless = true) (b : Bool) :
    readable b ks = true := by
  induction ks generalizing b with
  | nil => rfl
  | cons k ks ih =>
    rw [List.all_cons, Bool.and_eq_true] at h
    rw [readable, fits_of_harmless h.1, ih h.2]
    rfl

theorem readable_append {b : Bool} (h : readable b ks = true) (hls : ls.all TokenKind.harmless = true) :
    readable b (ks ++ ls) = true := by
  induction ks generalizing b with
  | nil => exact readable_of_harmless hls b
  | cons k ks ih =>
    simp only [readable, Bool.and_eq_true] at h
    simp only [List.cons_append, readable, h.1, ih h.2, Bool.and_self]

/-- The beginning of a derived program is viable, if the rest of it can be written. -/
theorem viable_of_derives (h : readable false ks = true) (hls : ls.all TokenKind.harmless = true)
    (hd : Derives .accepted (.program fs) (ks ++ ls)) : Viable ks := by
  have hkinds := kinds?_write (readable_append h hls)
  refine ⟨write (ks ++ ls), fs, ks ++ ls, parse_of_derives hkinds hd, hkinds, ?_⟩
  rw [List.append_assoc]
  exact List.prefix_append ks _

theorem leads_of_prefix {s : TokenStream} {l : Location} (h : Leads ls s (.endOfText l))
    (hp : ks ++ [k] <+: ls ++ [.endOfText]) : ∃ v, Leads ks s v ∧ v.head? = some k := by
  induction ks generalizing ls s with
  | nil =>
    cases ls with
    | nil =>
      cases h
      obtain ⟨rfl, _⟩ := List.cons_prefix_cons.1 hp
      exact ⟨_, rfl, rfl⟩
    | cons k' ls =>
      obtain ⟨rfl, _⟩ := List.cons_prefix_cons.1 hp
      exact ⟨s, rfl, h.head?⟩
  | cons k' ks ih =>
    cases ls with
    | nil =>
      have hnil := (List.cons_prefix_cons.1 hp).2
      simp at hnil
    | cons k'' ls =>
      obtain ⟨rfl, htail⟩ := List.cons_prefix_cons.1 hp
      obtain ⟨l', r, rfl, h⟩ := h
      obtain ⟨v, hv, hk⟩ := ih h htail
      exact ⟨v, ⟨l', r, rfl, hv⟩, hk⟩

end

/-! ### Errors -/

/-- An error of reading a lexeme is none of those that a parser sees at a token. -/
theorem ne_expected_of_readKind {afterOperand : Bool} {k : Cursor} {what : String} :
    (readKind afterOperand k).1 ≠ .error (.expected what) := by
  have hnumber : ∀ digits, numberToken digits ≠ .error (.expected what) := by
    intro digits
    simp only [numberToken]
    split <;> simp
  have hquoted : ∀ k, (readQuoted k).1 ≠ .error (.expected what) := by
    intro k
    unfold readQuoted
    split
    · simp
    · split
      · simp
      · dsimp only
        split <;> simp
  unfold readKind
  split
  · simp
  · unfold readToken
    split
    · exact hnumber _
    · split
      · simp
      · dsimp only
        split
        · exact hquoted _
        · split
          · simp
          · split <;> simp

section

variable {text : String} {e : ParseError} {k : TokenKind} {ks : List TokenKind} {v : TokenStream}

theorem program_of_parse_error (h : parse text = .error e) :
    program (bound (TokenStream.ofText text)) (TokenStream.ofText text) = some (.error e) := by
  obtain ⟨r, hr⟩ := Option.isSome_iff_exists.1 (isSome_program (TokenStream.ofText text))
  rw [parse_of_program hr] at h
  cases r with
  | ok at' => cases h
  | error e' =>
    cases h
    exact hr

/-- Tokens at which a program is refused, whatever comes after them, are not viable. -/
theorem not_viable_of_refused {n : Nat} (hk : v.head? = some k)
    (h : ∀ s' v', Leads ks s' v' → v'.head? = v.head? → ∃ e, program n s' = some (.error e)) :
    ¬ Viable (ks ++ [k]) := by
  intro hviable
  obtain ⟨text, fs, kinds, hparse, hkinds, hp⟩ := hviable
  obtain ⟨l, hl⟩ := kinds?_eq_some_iff.1 hkinds
  obtain ⟨v', hv', hk'⟩ := leads_of_prefix hl hp
  obtain ⟨t, ht⟩ := program_of_parse hparse
  obtain ⟨e, he⟩ := h _ v' hv' (hk'.trans hk.symm)
  exact not_program_of_error he ht

/-- What a parser sees at a token: that another one was expected, or that the text ends. -/
def ParseError.SeenAt (e : ParseError) (k : TokenKind) : Prop :=
  (∃ what, e.mistake = .expected what) ∨ e.mistake = .unexpectedEnd ∧ k = .endOfText

/-- The tokens `ks` before an error begin an accepted program. The error is located at the lexeme behind
them, and it is one of reading the lexeme, or of its token, with which the tokens begin no accepted
program. -/
structure Earliest (text : String) (e : ParseError) (ks : List TokenKind) (before rest : List Char) :
    Prop extends Place text ks before rest where
  location_eq : e.location = Location.start.through before
  viable : Viable ks
  next : (readKind (endsOperand ks false) ⟨rest, e.location⟩).1 = .error e.mistake ∧
      (∀ what, e.mistake ≠ .expected what) ∨
    ∃ k, (readKind (endsOperand ks false) ⟨rest, e.location⟩).1 = .ok k ∧ e.SeenAt k ∧
      ¬ Viable (ks ++ [k])

/-- Where a text is refused, the error is the earliest one that could be reported. -/
theorem earliest_of_parse_error (h : parse text = .error e) :
    ∃ ks before rest, Earliest text e ks before rest := by
  obtain ⟨ks, v, hks, hblames, ⟨ls, fs, hls, hd⟩, hsame⟩ :=
    (program_reads (Nat.le_refl _) _).error e (program_of_parse_error h)
  have hviable : Viable ks := viable_of_derives (readable_of_leads hks) hls hd
  have hrefused : ∀ k, v.head? = some k → ¬ Viable (ks ++ [k]) := fun k hk =>
    not_viable_of_refused hk fun s' v' => hsame s' v' .start
  obtain ⟨before, rest, hplace, rfl⟩ := place_of_leads hks
  -- the error is that of the stream behind the tokens, or is seen at its first token
  generalize hw : TokenStream.behind ks before rest = w at hblames hrefused
  cases hblames with
  | lexical =>
    obtain ⟨hlocation, hread⟩ := hplace.readKind_of_failed hw
    refine ⟨ks, before, rest, hplace, hlocation, hviable, .inl ⟨by rw [hlocation, hread], ?_⟩⟩
    intro what hwhat
    rw [hwhat] at hread
    exact ne_expected_of_readKind hread
  | @expected s k l what hfirst =>
    obtain ⟨rfl, hread⟩ := hplace.readKind_of_first? (hw ▸ hfirst)
    have hk := hrefused k (by simp [TokenStream.head?, hfirst])
    exact ⟨ks, before, rest, hplace, rfl, hviable, .inr ⟨k, hread, .inl ⟨what, rfl⟩, hk⟩⟩
  | ended hfirst =>
    obtain ⟨rfl, hread⟩ := hplace.readKind_of_first? (hw ▸ hfirst)
    have hk := hrefused .endOfText (by simp [TokenStream.head?, hfirst])
    refine ⟨ks, before, rest, hplace, rfl, hviable, .inr ⟨.endOfText, hread, ?_, hk⟩⟩
    exact .inr ⟨rfl, rfl⟩

/-- A sum lacks its second operand, and the error is at the semicolon that stands in its place. -/
theorem earliest_of_parse_error_operand :
    parse "DEF f() RETURN 1 + ; END;" = .error ⟨.expected "Expression", ⟨1, 20⟩⟩ ∧
    ∃ ks before rest,
      Earliest "DEF f() RETURN 1 + ; END;" ⟨.expected "Expression", ⟨1, 20⟩⟩ ks before rest := by
  have hunit : (parse "DEF f() RETURN 1 + ; END;").map (fun _ => ()) =
      .error ⟨.expected "Expression", ⟨1, 20⟩⟩ := by decide +kernel
  have herror : parse "DEF f() RETURN 1 + ; END;" = .error ⟨.expected "Expression", ⟨1, 20⟩⟩ := by
    cases hp : parse "DEF f() RETURN 1 + ; END;" with
    | ok fs =>
      rw [hp] at hunit
      cases hunit
    | error e =>
      rw [hp] at hunit
      cases hunit
      rfl
  exact ⟨herror, earliest_of_parse_error herror⟩

end

end WordMachine.Source
