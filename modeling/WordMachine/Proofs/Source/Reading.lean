import WordMachine.Proofs.Source.Derivation
import WordMachine.Proofs.Source.Stream

/-!
# What parsers read

A parser reads a phrase: the tokens that it takes are derived from it. Where it fails, it has taken
tokens that begin such a phrase, so others could complete it, and the error is at the next token. What
it does depends on these tokens and the next one alone, and is the same with a higher bound.
-/

namespace WordMachine.Source

/-- An error is that of a stream, or is seen at its next token. -/
inductive TokenStream.Blames : TokenStream → ParseError → Prop
  | lexical {e} : Blames (.failed e) e
  | expected {s k l} (what) : s.first? = some ⟨k, l⟩ → Blames s ⟨.expected what, l⟩
  | ended {s l} : s.first? = some ⟨.endOfText, l⟩ → Blames s ⟨.unexpectedEnd, l⟩

/-- A token that may stand anywhere in a text without changing how another one is read. -/
def TokenKind.harmless : TokenKind → Bool
  | unary _ | binary _ | endOfText => false
  | name x => x == "x"
  | _ => true

/-- What is read, as a set of lists of tokens with the value that each of them has. -/
def Language (α : Type) : Type := List TokenKind → α → Prop

namespace Language

def single {α : Type} (ks : List TokenKind) (a : α) : Language α := fun ls b => ls = ks ∧ b = a

variable {α β : Type} {L M : Language α}

def after (L : Language α) (ks : List TokenKind) : Language α := fun ls a => L (ks ++ ls) a

/-- Something is in the language, and nothing but harmless tokens is needed to write it. -/
def Fillable (L : Language α) : Prop := ∃ ks a, ks.all TokenKind.harmless = true ∧ L ks a

@[simp] theorem after_nil : L.after [] = L := rfl

@[simp] theorem after_iff {ks ls : List TokenKind} {a : α} : L.after ks ls a ↔ L (ks ++ ls) a := Iff.rfl

theorem after_after (ks ls : List TokenKind) : (L.after ks).after ls = L.after (ks ++ ls) := by
  funext ms a
  simp only [after, List.append_assoc]

theorem Fillable.mono (h : L.Fillable) (hLM : ∀ ks a, L ks a → M ks a) : M.Fillable := by
  obtain ⟨ks, a, hks, ha⟩ := h
  exact ⟨ks, a, hks, hLM ks a ha⟩

theorem Fillable.of_after (ks : List TokenKind) (hks : ks.all TokenKind.harmless = true)
    (h : (L.after ks).Fillable) : L.Fillable := by
  obtain ⟨ls, a, hls, ha⟩ := h
  exact ⟨ks ++ ls, a, by simp [hks, hls], ha⟩

end Language

namespace Rule

variable {α β : Type} {p : Rule α} {q : Location → Rule α} {f : α → Rule β} {f' : Location → α → Rule β}
  {g g' : Token → Rule α} {s : TokenStream} {L M : Language α} {N : Language β} {a : α}
  {k : TokenKind} {l : Location}

/-- On a stream a parser reads something of a language. Parsers that differ in a place where they may
fail do the same on every stream that is the same up to where the first one stops and looks. -/
structure Reads (p : Rule α) (q : Location → Rule α) (s : TokenStream) (L : Language α) : Prop where
  fill : L.Fillable
  ok : ∀ a t, p s = some (.ok (a, t)) → ∃ ks, Leads ks s t ∧ L ks a ∧
    ∀ s' t' l', Leads ks s' t' → t'.head? = t.head? → q l' s' = some (.ok (a, t'))
  error : ∀ e, p s = some (.error e) → ∃ ks v, Leads ks s v ∧ v.Blames e ∧ (L.after ks).Fillable ∧
    ∀ s' v' l', Leads ks s' v' → v'.head? = v.head? → ∃ e', q l' s' = some (.error e')

theorem bind_eq (p : Rule α) (f : α → Rule β) (s : TokenStream) : (p >>= f) s = andThen p f s := rfl

theorem Reads.mono (h : Reads p q s L) (hLM : ∀ ks a, L ks a → M ks a) : Reads p q s M where
  fill := h.fill.mono hLM
  ok a t he := by
    obtain ⟨ks, hks, ha, hsame⟩ := h.ok a t he
    exact ⟨ks, hks, hLM ks a ha, hsame⟩
  error e he := by
    obtain ⟨ks, v, hks, hv, hfill, hsame⟩ := h.error e he
    exact ⟨ks, v, hks, hv, hfill.mono fun ls a => hLM (ks ++ ls) a, hsame⟩

theorem reads_pure (h : L [] a) : Reads (pure a) (fun _ => pure a) s L where
  fill := ⟨[], a, rfl, h⟩
  ok b t he := by
    cases he
    refine ⟨[], rfl, h, fun s' t' l' hs _ => ?_⟩
    cases hs
    rfl
  error e he := by cases he

theorem reads_exhausted (h : L.Fillable) : Reads exhausted q s L where
  fill := h
  ok b t he := by cases he
  error e he := by cases he

theorem reads_fail {m : Mistake} (hfill : L.Fillable) (hs : s.Blames ⟨m, l⟩) :
    Reads (fail m l) (fun l' => fail m l') s L where
  fill := hfill
  ok b t he := by cases he
  error e he := by
    cases he
    exact ⟨[], s, rfl, hs, hfill, fun s' v' l' _ _ => ⟨⟨m, l'⟩, rfl⟩⟩

theorem bind_eq_ok {r : β × TokenStream} : (p >>= f) s = some (.ok r) ↔
    ∃ a t, p s = some (.ok (a, t)) ∧ f a t = some (.ok r) := by
  rw [bind_eq, andThen]
  cases hp : p s with
  | none => simp
  | some x =>
    cases x with
    | error e => simp
    | ok at' =>
      obtain ⟨a, t⟩ := at'
      simp [and_assoc]

theorem bind_eq_error {e : ParseError} : (p >>= f) s = some (.error e) ↔
    p s = some (.error e) ∨ ∃ a t, p s = some (.ok (a, t)) ∧ f a t = some (.error e) := by
  rw [bind_eq, andThen]
  cases hp : p s with
  | none => simp
  | some x =>
    cases x with
    | error e => simp
    | ok at' =>
      obtain ⟨a, t⟩ := at'
      simp [and_assoc]

/-- One parser after another, where something is known about the stream that the first one leaves. -/
theorem Reads.bind_of (P : TokenStream → Prop) (t₀ : TokenStream) (ht₀ : P t₀) (hp : Reads p q s L)
    (hP : ∀ a t, p s = some (.ok (a, t)) → P t)
    (hf : ∀ ks a t, L ks a → P t → Reads (f a) (fun l => f' l a) t (N.after ks)) :
    Reads (p >>= f) (fun l => q l >>= f' l) s N where
  fill := by
    obtain ⟨ks, a, hks, ha⟩ := hp.fill
    exact .of_after _ hks (hf ks a t₀ ha ht₀).fill
  ok b u he := by
    obtain ⟨a, t, hr, he⟩ := bind_eq_ok.1 he
    obtain ⟨ks, hks, ha, hq⟩ := hp.ok a t hr
    obtain ⟨ls, hls, hb, hf'⟩ := (hf ks a t ha (hP a t hr)).ok b u he
    refine ⟨ks ++ ls, hks.trans hls, hb, fun s' u' l' hs hu => ?_⟩
    obtain ⟨t', hst, htu⟩ := leads_append.1 hs
    exact bind_eq_ok.2 ⟨a, t', hq s' t' l' hst (hls.head?_congr htu hu), hf' t' u' l' htu hu⟩
  error e he := by
    obtain hr | ⟨a, t, hr, he⟩ := bind_eq_error.1 he
    · obtain ⟨ks, v, hks, hv, hfill, hq⟩ := hp.error e hr
      refine ⟨ks, v, hks, hv, ?_, fun s' v' l' hs hv' => ?_⟩
      · obtain ⟨ls, a, hls, ha⟩ := hfill
        refine .of_after _ hls ?_
        rw [Language.after_after]
        exact (hf (ks ++ ls) a t₀ ha ht₀).fill
      · obtain ⟨e', he'⟩ := hq s' v' l' hs hv'
        exact ⟨e', bind_eq_error.2 (.inl he')⟩
    · obtain ⟨ks, hks, ha, hq⟩ := hp.ok a t hr
      obtain ⟨ls, v, hls, hv, hfill, hf'⟩ := (hf ks a t ha (hP a t hr)).error e he
      rw [Language.after_after] at hfill
      refine ⟨ks ++ ls, v, hks.trans hls, hv, hfill, fun s' v' l' hs hv' => ?_⟩
      obtain ⟨t', hst, htv⟩ := leads_append.1 hs
      obtain ⟨e', he'⟩ := hf' t' v' l' htv hv'
      exact ⟨e', bind_eq_error.2 (.inr ⟨a, t', hq s' t' l' hst (hls.head?_congr htv hv'), he'⟩)⟩

theorem Reads.bind (hp : Reads p q s L)
    (hf : ∀ ks a t, L ks a → Reads (f a) (fun l => f' l a) t (N.after ks)) :
    Reads (p >>= f) (fun l => q l >>= f' l) s N :=
  .bind_of (fun _ => True) s trivial hp (fun _ _ _ => trivial) fun ks a t ha _ => hf ks a t ha

theorem peek_bind {t : Token} (h : s.first? = some t) : (peek >>= g) s = g t s := by
  cases s <;> cases h <;> rfl

theorem reads_peek (hfill : L.Fillable)
    (h : ∀ k l, s.first? = some ⟨k, l⟩ → Reads (g ⟨k, l⟩) (fun l' => g' ⟨k, l'⟩) s L) :
    Reads (peek >>= g) (fun _ => peek >>= g') s L := by
  have halike : ∀ {k l s'}, s.first? = some ⟨k, l⟩ → s'.head? = s.head? →
      ∃ l', (peek >>= g') s' = g' ⟨k, l'⟩ s' := by
    intro k l s' hs hhead
    have hk : s'.head? = some k := hhead.trans (by simp [TokenStream.head?, hs])
    obtain ⟨l', hs'⟩ := TokenStream.first?_of_head? hk
    exact ⟨l', peek_bind hs'⟩
  cases hs : s.first? with
  | none =>
    cases s with
    | endOfText l => cases hs
    | token t rest => cases hs
    | failed e =>
      refine ⟨hfill, fun a t he => ?_, fun e' he => ?_⟩ <;> cases he
      refine ⟨[], .failed e, rfl, .lexical, hfill, fun s' v' l' hs' hv => ?_⟩
      cases hs'
      cases s' with
      | failed e'' => exact ⟨e'', rfl⟩
      | endOfText l => cases hv
      | token t rest => cases hv
  | some t =>
    obtain ⟨k, l⟩ := t
    have hr := h k l hs
    refine ⟨hfill, fun a t he => ?_, fun e he => ?_⟩
    · rw [peek_bind hs] at he
      obtain ⟨ks, hks, ha, hsame⟩ := hr.ok a t he
      refine ⟨ks, hks, ha, fun s' t' _ hs' ht => ?_⟩
      obtain ⟨l', hp⟩ := halike hs (hks.head?_congr hs' ht)
      rw [hp]
      exact hsame s' t' l' hs' ht
    · rw [peek_bind hs] at he
      obtain ⟨ks, v, hks, hv, hrest, hsame⟩ := hr.error e he
      refine ⟨ks, v, hks, hv, hrest, fun s' v' _ hs' hv' => ?_⟩
      obtain ⟨l', hp⟩ := halike hs (hks.head?_congr hs' hv')
      rw [hp]
      exact hsame s' v' l' hs' hv'

theorem reads_take (hfill : L.Fillable) (hs : s.first? = some ⟨k, l⟩) (hk : k ≠ .endOfText)
    (h : ∀ r, Reads (g ⟨k, l⟩) (fun l' => g' ⟨k, l'⟩) r (L.after [k])) :
    Reads (next >>= g) (fun _ => next >>= g') s L := by
  obtain ⟨r, rfl⟩ := TokenStream.eq_token_of_first? hs hk
  refine ⟨hfill, fun a t he => ?_, fun e he => ?_⟩
  · obtain ⟨ks, hks, ha, hsame⟩ := (h r).ok a t he
    refine ⟨k :: ks, ⟨l, r, rfl, hks⟩, ha, fun s' t' _ hs' ht => ?_⟩
    obtain ⟨l', r', rfl, hr⟩ := hs'
    exact hsame r' t' l' hr ht
  · obtain ⟨ks, v, hks, hv, hrest, hsame⟩ := (h r).error e he
    rw [Language.after_after] at hrest
    refine ⟨k :: ks, v, ⟨l, r, rfl, hks⟩, hv, hrest, fun s' v' _ hs' hv' => ?_⟩
    obtain ⟨l', r', rfl, hr⟩ := hs'
    exact hsame r' v' l' hr hv'

theorem next_bind {t : Token} (h : s.first? = some t) : ∃ r, (next >>= g) s = g t r := by
  cases s <;> cases h <;> exact ⟨_, rfl⟩

theorem reads_next (hfill : L.Fillable) (h : ∀ k l, s.first? = some ⟨k, l⟩ →
    (∃ what, g ⟨k, l⟩ = fail (.expected what) l ∧ ∀ l', g' ⟨k, l'⟩ = fail (.expected what) l') ∨
    k ≠ .endOfText ∧ ∀ r, Reads (g ⟨k, l⟩) (fun l' => g' ⟨k, l'⟩) r (L.after [k])) :
    Reads (next >>= g) (fun _ => next >>= g') s L := by
  have hlook : ∀ g : Token → Rule α, next >>= g = peek >>= fun _ => next >>= g := by
    intro g
    funext s
    cases s <;> rfl
  rw [hlook g, hlook g']
  refine reads_peek hfill fun k l hs => ?_
  obtain ⟨what, hg, hg'⟩ | ⟨hk, hr⟩ := h k l hs
  · refine ⟨hfill, fun a t he => ?_, fun e he => ?_⟩
    · obtain ⟨r, hr⟩ := next_bind hs
      rw [hr, hg] at he
      cases he
    · obtain ⟨r, hr⟩ := next_bind hs
      rw [hr, hg] at he
      cases he
      refine ⟨[], s, rfl, TokenStream.Blames.expected what hs, hfill, fun s' v' _ hs' hv => ?_⟩
      cases hs'
      have hk : s'.head? = some k := hv.trans (by simp [TokenStream.head?, hs])
      obtain ⟨l', hl'⟩ := TokenStream.first?_of_head? hk
      obtain ⟨r', hr'⟩ := next_bind hl'
      exact ⟨⟨.expected what, l'⟩, by rw [hr', hg']; rfl⟩
  · exact reads_take hfill hs hk hr

theorem reads_expect {what : String} (hk : k.harmless = true) :
    Reads (expect k what) (fun _ => expect k what) s (.single [k] ()) := by
  refine reads_next ⟨[k], (), by simp [hk], rfl, rfl⟩ fun k' l _ => ?_
  by_cases hk' : k' = k
  · subst hk'
    refine .inr ⟨?_, fun r => ?_⟩
    · rintro rfl
      cases hk
    · simp only [if_true]
      exact reads_pure ⟨rfl, rfl⟩
  · exact .inl ⟨what, by simp [hk'], fun l' => by simp [hk']⟩

end Rule

end WordMachine.Source
