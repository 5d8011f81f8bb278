import WordMachine.Source.Token

/-!
# Parsers

A parser reads a value from the front of a stream of tokens, or fails at a token. The rules of a
grammar call each other, so a parser is given a bound on how deep; where it reaches the bound there is
no result. `Rule.Ensures` states what a parser's result satisfies, and that there is one.
-/

namespace WordMachine.Source

/-- Reads a value and gives the stream after it. The result is `none` where a bound is reached. -/
def Rule (α : Type) : Type := TokenStream → Option (Except ParseError (α × TokenStream))

namespace Rule

variable {α β : Type}

def succeed (a : α) : Rule α := fun s => some (.ok (a, s))

def andThen (p : Rule α) (f : α → Rule β) : Rule β := fun s =>
  match p s with
  | some (.ok (a, s)) => f a s
  | some (.error e) => some (.error e)
  | none => none

instance : Monad Rule where
  pure := succeed
  bind := andThen

/-- The bound is reached. -/
def exhausted : Rule α := fun _ => none

def fail (mistake : Mistake) (location : Location) : Rule α := fun _ =>
  some (.error ⟨mistake, location⟩)

def peek : Rule Token := fun s =>
  match s with
  | .endOfText location => some (.ok (⟨.endOfText, location⟩, s))
  | .failed e => some (.error e)
  | .token t _ => some (.ok (t, s))

/-- Takes the next token. The end of the text stays. -/
def next : Rule Token := fun s =>
  match s with
  | .endOfText location => some (.ok (⟨.endOfText, location⟩, s))
  | .failed e => some (.error e)
  | .token t rest => some (.ok (t, rest))

def expect (kind : TokenKind) (what : String) : Rule Unit := do
  let t ← next
  if t.kind = kind then return () else fail (.expected what) t.location

/-! ### What a parser ensures -/

/-- A parser has a result on a stream, and the value and the stream after it satisfy `Q`. -/
def Ensures (p : Rule α) (s : TokenStream) (Q : α → TokenStream → Prop) : Prop :=
  ∃ r, p s = some r ∧ ∀ a t, r = .ok (a, t) → Q a t

theorem ensures_succeed {a : α} {s : TokenStream} {Q : α → TokenStream → Prop} (h : Q a s) :
    Ensures (pure a) s Q :=
  ⟨_, rfl, fun _ _ e => by cases e; exact h⟩

theorem ensures_fail {mistake : Mistake} {location : Location} {s : TokenStream}
    {Q : α → TokenStream → Prop} : Ensures (fail mistake location) s Q :=
  ⟨_, rfl, fun _ _ e => nomatch e⟩

theorem ensures_bind {p : Rule α} {f : α → Rule β} {s : TokenStream} {P : α → TokenStream → Prop}
    {Q : β → TokenStream → Prop} (hp : Ensures p s P)
    (hf : ∀ a t, P a t → Ensures (f a) t Q) : Ensures (p >>= f) s Q := by
  obtain ⟨r, hr, h⟩ := hp
  match r with
  | .error e =>
    refine ⟨.error e, ?_, fun _ _ h => nomatch h⟩
    show andThen p f s = _
    simp [andThen, hr]
  | .ok (a, t) =>
    obtain ⟨r', hr', h'⟩ := hf a t (h a t rfl)
    refine ⟨r', ?_, h'⟩
    show andThen p f s = _
    simp [andThen, hr, hr']

theorem ensures_mono {p : Rule α} {s : TokenStream} {P Q : α → TokenStream → Prop} (hp : Ensures p s P)
    (h : ∀ a t, P a t → Q a t) : Ensures p s Q :=
  let ⟨r, hr, hq⟩ := hp
  ⟨r, hr, fun a t e => h a t (hq a t e)⟩

theorem ensures_peek (s : TokenStream) :
    Ensures peek s fun t after => after = s ∧ (t.kind ≠ .endOfText → 0 < s.length) := by
  match s with
  | .endOfText location =>
    exact ⟨_, rfl, fun _ _ e => by cases e; exact ⟨rfl, fun h => absurd rfl h⟩⟩
  | .failed e => exact ⟨_, rfl, fun _ _ h => nomatch h⟩
  | .token t rest =>
    exact ⟨_, rfl, fun _ _ e => by cases e; exact ⟨rfl, fun _ => Nat.succ_pos _⟩⟩

theorem ensures_next (s : TokenStream) :
    Ensures next s fun t after => after.length ≤ s.length ∧
      (0 < s.length → after.length < s.length) ∧ (t.kind ≠ .endOfText → 0 < s.length) := by
  match s with
  | .endOfText location =>
    exact ⟨_, rfl, fun _ _ e => by
      cases e; exact ⟨Nat.le_refl _, fun h => absurd h (Nat.lt_irrefl _), fun h => absurd rfl h⟩⟩
  | .failed e => exact ⟨_, rfl, fun _ _ h => nomatch h⟩
  | .token t rest =>
    exact ⟨_, rfl, fun _ _ e => by
      cases e; exact ⟨Nat.le_succ _, fun _ => Nat.lt_succ_self _, fun _ => Nat.succ_pos _⟩⟩

theorem ensures_expect {kind : TokenKind} {what : String} (s : TokenStream) (h : kind ≠ .endOfText) :
    Ensures (expect kind what) s fun _ after => after.length < s.length := by
  refine ensures_bind (ensures_next s) fun t after ⟨_, hlt, hpos⟩ => ?_
  split
  · next hk => exact ensures_succeed (hlt (hpos (hk ▸ h)))
  · exact ensures_fail

end Rule

end WordMachine.Source
