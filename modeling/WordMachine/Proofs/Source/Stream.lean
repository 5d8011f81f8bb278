import WordMachine.Source.Parse

/-!
# Streams as lists of tokens

What a parser has read lies between two streams. What it looks at next is the first token of the
second one, the end of the text counted as a token.
-/

namespace WordMachine.Source

namespace TokenStream

/-- The next token, unless there is an error. -/
def first? : TokenStream → Option Token
  | endOfText location => some ⟨.endOfText, location⟩
  | failed _ => none
  | token t _ => some t

def head? (s : TokenStream) : Option TokenKind := s.first?.map Token.kind

def kinds? : TokenStream → Option (List TokenKind)
  | endOfText _ => some []
  | failed _ => none
  | token t rest => rest.kinds?.map (t.kind :: ·)

@[simp] theorem head?_endOfText (l : Location) : (endOfText l).head? = some .endOfText := rfl

@[simp] theorem head?_failed (e : ParseError) : (failed e).head? = none := rfl

@[simp] theorem head?_token (t : Token) (rest : TokenStream) : (token t rest).head? = some t.kind := rfl

theorem first?_of_head? {s : TokenStream} {k : TokenKind} (h : s.head? = some k) :
    ∃ l, s.first? = some ⟨k, l⟩ := by
  obtain ⟨t, ht, hk⟩ := Option.map_eq_some_iff.1 h
  exact ⟨t.location, by rw [ht, ← hk]⟩

theorem eq_token_of_first? {s : TokenStream} {k : TokenKind} {l : Location}
    (h : s.first? = some ⟨k, l⟩) (hk : k ≠ .endOfText) : ∃ rest, s = .token ⟨k, l⟩ rest := by
  cases s with
  | endOfText location =>
    cases h
    exact absurd rfl hk
  | failed e => cases h
  | token t rest =>
    cases h
    exact ⟨rest, rfl⟩

end TokenStream

def Leads : List TokenKind → TokenStream → TokenStream → Prop
  | [], s, t => s = t
  | k :: ks, s, t => ∃ l r, s = .token ⟨k, l⟩ r ∧ Leads ks r t

@[simp] theorem leads_nil {s t : TokenStream} : Leads [] s t ↔ s = t := Iff.rfl

theorem leads_cons {k : TokenKind} {ks : List TokenKind} {s t : TokenStream} :
    Leads (k :: ks) s t ↔ ∃ l r, s = .token ⟨k, l⟩ r ∧ Leads ks r t := Iff.rfl

theorem leads_append {ks ls : List TokenKind} {s t : TokenStream} :
    Leads (ks ++ ls) s t ↔ ∃ r, Leads ks s r ∧ Leads ls r t := by
  induction ks generalizing s with
  | nil => simp
  | cons k ks ih =>
    simp only [List.cons_append, leads_cons, ih]
    constructor
    · intro h
      obtain ⟨l, r, hs, u, hks, hls⟩ := h
      exact ⟨u, ⟨l, r, hs, hks⟩, hls⟩
    · intro h
      obtain ⟨u, ⟨l, r, hs, hks⟩, hls⟩ := h
      exact ⟨l, r, hs, u, hks, hls⟩

theorem Leads.trans {ks ls : List TokenKind} {s t u : TokenStream} (h : Leads ks s t)
    (h' : Leads ls t u) : Leads (ks ++ ls) s u :=
  leads_append.2 ⟨t, h, h'⟩

theorem leads_token {k : TokenKind} {l : Location} {r : TokenStream} :
    Leads [k] (.token ⟨k, l⟩ r) r := ⟨l, r, rfl, rfl⟩

theorem Leads.head? {k : TokenKind} {ks : List TokenKind} {s t : TokenStream}
    (h : Leads (k :: ks) s t) : s.head? = some k := by
  obtain ⟨l, r, rfl, _⟩ := h
  rfl

theorem Leads.head?_congr {ks : List TokenKind} {s t s' t' : TokenStream} (h : Leads ks s t)
    (h' : Leads ks s' t') (ht : t'.head? = t.head?) : s'.head? = s.head? := by
  cases ks with
  | nil =>
    cases h
    cases h'
    exact ht
  | cons k ks => rw [h.head?, h'.head?]

theorem kinds?_eq_some_iff {s : TokenStream} {ks : List TokenKind} :
    s.kinds? = some ks ↔ ∃ l, Leads ks s (.endOfText l) := by
  induction s generalizing ks with
  | endOfText location =>
    cases ks with
    | nil => simp [TokenStream.kinds?]
    | cons k ks => simp [TokenStream.kinds?, leads_cons]
  | failed e => cases ks <;> simp [TokenStream.kinds?, leads_cons]
  | token t rest ih =>
    cases ks with
    | nil => simp [TokenStream.kinds?]
    | cons k ks =>
      simp only [TokenStream.kinds?, Option.map_eq_some_iff, ih, List.cons.injEq]
      constructor
      · intro h
        obtain ⟨_, ⟨l, hl⟩, rfl, rfl⟩ := h
        exact ⟨l, t.location, rest, rfl, hl⟩
      · intro h
        obtain ⟨l, _, _, ht, hl⟩ := h
        cases ht
        exact ⟨ks, ⟨l, hl⟩, rfl, rfl⟩

end WordMachine.Source
