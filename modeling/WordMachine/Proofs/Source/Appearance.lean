import Mathlib.Data.List.Forall2
import WordMachine.Proofs.Compiler.Lines
import WordMachine.Proofs.Occurrences
import WordMachine.Proofs.Source.Recording

/-!
# References in order of appearance

The tokens of a function say where it uses variables and where it calls functions. Its local variables
are listed as they first come up, those that are no parameters. Its callees are listed as their calls
first end: a call that is an argument of another ends before it, though it begins after it.
-/

namespace WordMachine.Source

open Grammar

/-! ### Lists in order of place -/

/-- What occurs, each thing once, in the order of the places where it occurs first. -/
structure ListsFirst {α : Type} (P : Nat → α → Prop) (as : List α) : Prop where
  nodup : as.Nodup
  mem_iff : ∀ a, a ∈ as ↔ ∃ i, P i a
  ordered : as.Pairwise fun a b => ∃ i, P i a ∧ ∀ j, P j b → i < j

section

variable {α : Type} {P : Nat → α → Prop} {as : List α}

theorem ListsFirst.filter (h : ListsFirst P as) (p : α → Bool) :
    ListsFirst (fun i a => P i a ∧ p a = true) (as.filter p) where
  nodup := h.nodup.filter p
  mem_iff a := by simp [h.mem_iff]
  ordered := by
    refine (h.ordered.filter p).imp_of_mem fun {a b} ha _ hab => ?_
    obtain ⟨i, hi, hlt⟩ := hab
    exact ⟨i, ⟨hi, (List.mem_filter.1 ha).2⟩, fun j hj => hlt j hj.1⟩

end

/-! ### Variables -/

/-- A call of a function goes from one place to another: from its name to the parenthesis that closes
its arguments. -/
def CallsAt (ks : List TokenKind) (i j : Nat) (s : Signature) : Prop :=
  ∃ before args es after,
    ks = before ++ .name s.name :: .leftParen :: (args ++ .rightParen :: after) ∧
    Derives .accepted (.arguments es) args ∧ s.arity = es.length ∧
    i = before.length ∧ j = before.length + args.length + 2

/-- Some call has another one among its arguments. -/
def Nests (ks : List TokenKind) : Prop :=
  ∃ i j s i' j' s', CallsAt ks i j s ∧ CallsAt ks i' j' s' ∧ i < i' ∧ j' < j

def Opens (ks : List TokenKind) (i : Nat) : Prop :=
  (∃ x, ks[i]? = some (.name x)) ∧ ks[i + 1]? = some .leftParen

def TokenStream.ofKinds : List TokenKind → TokenStream
  | [] => .endOfText .start
  | k :: ks => .token ⟨k, .start⟩ (ofKinds ks)

section

variable {ks ls args : List TokenKind} {k : TokenKind} {i j : Nat} {s : Signature} {es : List Expr}

theorem leads_ofKinds (ks ls : List TokenKind) :
    Leads ks (.ofKinds (ks ++ ls)) (.ofKinds ls) := by
  induction ks with
  | nil => rfl
  | cons k ks ih => exact ⟨_, _, rfl, ih⟩

theorem ofKinds_inj (h : TokenStream.ofKinds ks = .ofKinds ls) : ks = ls := by
  induction ks generalizing ls with
  | nil =>
    cases ls with
    | nil => rfl
    | cons l ls => cases h
  | cons k ks ih =>
    cases ls with
    | nil => cases h
    | cons l ls =>
      simp only [TokenStream.ofKinds, TokenStream.token.injEq, Token.mk.injEq, and_true] at h
      rw [h.1, ih h.2]

theorem Grammar.Reaches.unique {α : Type} {p : Nat → Rule α} {s t u : TokenStream} {a b : α}
    (h : Reaches p s a t) (h' : Reaches p s b u) : a = b ∧ t = u := by
  obtain ⟨m, hm⟩ := h
  obtain ⟨m', hm'⟩ := h'
  have heq := (hm (m + m') (Nat.le_add_right m m')).symm.trans (hm' (m + m') (Nat.le_add_left m' m))
  simpa using heq

/-- A call ends in one place, and the tokens between say how many arguments it has. -/
theorem CallsAt.unique {j' : Nat} {s' : Signature} (h : CallsAt ks i j s) (h' : CallsAt ks i j' s') :
    j = j' ∧ s = s' := by
  obtain ⟨before, args, es, after, hks, hes, hs, rfl, rfl⟩ := h
  obtain ⟨before', args', es', after', hks', hes', hs', hlen, rfl⟩ := h'
  rw [hks] at hks'
  obtain ⟨rfl, htail⟩ := List.append_inj hks' hlen
  simp only [List.cons.injEq, TokenKind.name.injEq, true_and] at htail
  obtain ⟨hname, htail⟩ := htail
  have hread : Reaches Grammar.arguments _ es (.ofKinds after) :=
    hes.read _ _ _ (leads_ofKinds args (.rightParen :: after))
  have hread' : Reaches Grammar.arguments _ es' (.ofKinds after') :=
    hes'.read _ _ _ (leads_ofKinds args' (.rightParen :: after'))
  rw [htail] at hread
  obtain ⟨rfl, hafter⟩ := hread.unique hread'
  cases ofKinds_inj hafter
  rw [List.append_cancel_right htail]
  refine ⟨rfl, ?_⟩
  cases s
  cases s'
  simp_all

theorem CallsAt.opens (h : CallsAt ks i j s) : Opens ks i := by
  obtain ⟨before, args, es, after, rfl, _, _, rfl, _⟩ := h
  refine ⟨⟨s.name, ?_⟩, ?_⟩
  · simp
  · rw [List.getElem?_append_right (Nat.le_succ _)]
    simp

theorem CallsAt.lt_length (h : CallsAt ks i j s) : j < ks.length := by
  obtain ⟨before, args, es, after, rfl, _, _, _, rfl⟩ := h
  simp only [List.length_append, List.length_cons]
  omega

theorem CallsAt.append (h : CallsAt ks i j s) (ls : List TokenKind) : CallsAt (ks ++ ls) i j s := by
  obtain ⟨before, args, es, after, rfl, hes, hs, hi, hj⟩ := h
  exact ⟨before, args, es, after ++ ls, by simp, hes, hs, hi, hj⟩

theorem CallsAt.behind (h : CallsAt ks i j s) (ls : List TokenKind) :
    CallsAt (ls ++ ks) (ls.length + i) (ls.length + j) s := by
  obtain ⟨before, args, es, after, rfl, hes, hs, rfl, rfl⟩ := h
  refine ⟨ls ++ before, args, es, after, by simp, hes, hs, by simp, ?_⟩
  rw [List.length_append]
  omega

end

/-! ### The calls of a phrase -/

structure Site where
  first : Nat
  last : Nat
  callee : Signature

def Site.behind (n : Nat) (c : Site) : Site := ⟨n + c.first, n + c.last, c.callee⟩

/-- The calls among tokens are these, in the order in which they end. -/
structure Sited (ks : List TokenKind) (sites : List Site) : Prop where
  sorted : sites.Pairwise fun c d => c.last < d.last
  calls : ∀ c ∈ sites, CallsAt ks c.first c.last c.callee
  complete : ∀ i, Opens ks i → ∃ c ∈ sites, c.first = i

def Ends (ks : List TokenKind) (ss : List Signature) : Prop :=
  ∃ sites, Sited ks sites ∧ sites.map Site.callee = ss

def TokenKind.separates : TokenKind → Bool
  | name _ | leftParen => false
  | _ => true

section

variable {ks ls : List TokenKind} {k : TokenKind} {ss ts : List Signature} {sites sites' : List Site}

theorem opens_append {i : Nat} (h : Opens (ks ++ ls) i)
    (hseam : ∀ x, ks.getLast? = some (.name x) → ls.head? ≠ some .leftParen) :
    Opens ks i ∨ ∃ j, Opens ls j ∧ i = ks.length + j := by
  obtain ⟨⟨x, hx⟩, hparen⟩ := h
  rcases Nat.lt_or_ge i ks.length with hi | hi
  · rw [List.getElem?_append_left hi] at hx
    rcases Nat.lt_or_ge (i + 1) ks.length with hi' | hi'
    · rw [List.getElem?_append_left hi'] at hparen
      exact .inl ⟨⟨x, hx⟩, hparen⟩
    · have hlast : i = ks.length - 1 := by omega
      have hfirst : i + 1 - ks.length = 0 := by omega
      rw [List.getElem?_append_right hi', hfirst, ← List.head?_eq_getElem?] at hparen
      rw [hlast, ← List.getLast?_eq_getElem?] at hx
      exact absurd hparen (hseam x hx)
  · have hnext : i + 1 - ks.length = i - ks.length + 1 := by omega
    rw [List.getElem?_append_right hi] at hx
    rw [List.getElem?_append_right (Nat.le_succ_of_le hi), hnext] at hparen
    exact .inr ⟨i - ks.length, ⟨⟨x, hx⟩, hparen⟩, by omega⟩

theorem Sited.append (h : Sited ks sites) (h' : Sited ls sites')
    (hseam : ∀ x, ks.getLast? = some (.name x) → ls.head? ≠ some .leftParen) :
    Sited (ks ++ ls) (sites ++ sites'.map (Site.behind ks.length)) where
  sorted := by
    refine List.pairwise_append.2 ⟨h.sorted, ?_, ?_⟩
    · exact List.pairwise_map.2 (h'.sorted.imp fun hlt => Nat.add_lt_add_left hlt _)
    · intro c hc d hd
      obtain ⟨d, _, rfl⟩ := List.mem_map.1 hd
      exact Nat.lt_of_lt_of_le (h.calls c hc).lt_length (Nat.le_add_right _ _)
  calls c hc := by
    rcases List.mem_append.1 hc with hc | hc
    · exact (h.calls c hc).append ls
    · obtain ⟨d, hd, rfl⟩ := List.mem_map.1 hc
      exact (h'.calls d hd).behind ks
  complete i hi := by
    rcases opens_append hi hseam with hi | ⟨j, hj, rfl⟩
    · obtain ⟨c, hc, rfl⟩ := h.complete i hi
      exact ⟨c, List.mem_append_left _ hc, rfl⟩
    · obtain ⟨d, hd, rfl⟩ := h'.complete j hj
      exact ⟨_, List.mem_append_right _ (List.mem_map_of_mem hd), rfl⟩

theorem Ends.append (h : Ends ks ss) (h' : Ends ls ts)
    (hseam : ∀ x, ks.getLast? = some (.name x) → ls.head? ≠ some .leftParen) :
    Ends (ks ++ ls) (ss ++ ts) := by
  obtain ⟨sites, hsites, rfl⟩ := h
  obtain ⟨sites', hsites', rfl⟩ := h'
  exact ⟨_, hsites.append hsites' hseam, by simp [Site.behind, Function.comp_def]⟩

theorem ends_nil : Ends [] [] :=
  ⟨[], ⟨.nil, fun c hc => absurd hc List.not_mem_nil, fun i h => by simp [Opens] at h⟩, rfl⟩

theorem ends_token (k : TokenKind) : Ends [k] [] :=
  ⟨[], ⟨.nil, fun c hc => absurd hc List.not_mem_nil, fun i h => by simp [Opens] at h⟩, rfl⟩

theorem Ends.join (h : Ends ks ss) (h' : Ends ls ts) (hk : k.separates = true) :
    Ends (ks ++ k :: ls) (ss ++ ts) := by
  have hafter : Ends (k :: ls) ([] ++ ts) := (ends_token k).append h' fun x hx => by
    cases hx
    cases hk
  refine h.append hafter fun x _ hx => ?_
  cases hx
  cases hk

theorem Ends.closed (h : Ends ks ss) (hk : k.separates = true) : Ends (ks ++ [k]) ss := by
  have hnil := h.join ends_nil hk
  rwa [List.append_nil] at hnil

theorem Ends.after (h : Ends ks ss) (hk : ∀ x, k ≠ .name x) : Ends (k :: ks) ss :=
  (ends_token k).append h fun x hx => by
    cases hx
    exact absurd rfl (hk x)

theorem Ends.call {f : String} {es : List Expr} (h : Ends ks ss) (hes : Derives .accepted (.arguments es) ks) :
    Ends (.name f :: .leftParen :: (ks ++ [.rightParen])) (ss ++ [⟨f, es.length⟩]) := by
  obtain ⟨sites, hsites, rfl⟩ := h
  have hwhole : CallsAt (.name f :: .leftParen :: (ks ++ [.rightParen])) 0 (ks.length + 2) ⟨f, es.length⟩ :=
    ⟨[], ks, es, [], by simp, hes, rfl, rfl, by simp⟩
  refine ⟨sites.map (Site.behind 2) ++ [⟨0, ks.length + 2, ⟨f, es.length⟩⟩], ⟨?_, ?_, ?_⟩, ?_⟩
  · refine List.pairwise_append.2 ⟨?_, List.pairwise_singleton _ _, ?_⟩
    · exact List.pairwise_map.2 (hsites.sorted.imp fun hlt => Nat.add_lt_add_left hlt _)
    · intro c hc d hd
      obtain ⟨b, hb, rfl⟩ := List.mem_map.1 hc
      cases List.mem_singleton.1 hd
      have hlt := (hsites.calls b hb).lt_length
      simp only [Site.behind]
      omega
  · intro c hc
    rcases List.mem_append.1 hc with hc | hc
    · obtain ⟨d, hd, rfl⟩ := List.mem_map.1 hc
      exact ((hsites.calls d hd).append [.rightParen]).behind [.name f, .leftParen]
    · cases List.mem_singleton.1 hc
      exact hwhole
  · intro i hi
    have hopens : Opens ([.name f, .leftParen] ++ (ks ++ [.rightParen])) i := hi
    rcases opens_append hopens (fun x hx => by cases hx) with hi | ⟨j, hj, rfl⟩
    · refine ⟨_, List.mem_append_right _ (List.mem_singleton_self _), ?_⟩
      obtain ⟨_, hparen⟩ := hi
      match i with
      | 0 => rfl
      | i + 1 => simp at hparen
    · rcases opens_append hj (fun x _ hx => by cases hx) with hj | ⟨l, hl, rfl⟩
      · obtain ⟨c, hc, rfl⟩ := hsites.complete j hj
        exact ⟨_, List.mem_append_left _ (List.mem_map_of_mem hc), rfl⟩
      · simp [Opens] at hl
  · simp [Site.behind, Function.comp_def]

end

namespace Grammar

variable {ks : List TokenKind}

theorem Ends.ended {ss : List Signature} (h : Ends ks ss) :
    Ends (ks ++ [.keyword .END, .semicolon]) ss := by
  have hend := h.join (ends_token .semicolon) (k := .keyword .END) rfl
  rwa [List.append_nil] at hend

end Grammar

/-! ### The references of a function -/

section

variable {ks body : List TokenKind} {ss : List Signature} {f : Function} {fs : List Function}

theorem Ends.listsAll (h : Ends ks ss) : ListsAll (fun j s => ∃ i, CallsAt ks i j s) ss := by
  obtain ⟨sites, hsites, rfl⟩ := h
  refine ⟨sites.map fun c => (c.last, c.callee), by simp [Function.comp_def],
    List.pairwise_map.2 hsites.sorted, fun j s => ⟨?_, ?_⟩⟩
  · intro hcall
    obtain ⟨i, hcall⟩ := hcall
    obtain ⟨c, hc, rfl⟩ := hsites.complete i hcall.opens
    obtain ⟨rfl, rfl⟩ := hcall.unique (hsites.calls c hc)
    exact List.mem_map_of_mem (f := fun c : Site => (c.last, c.callee)) hc
  · intro hmem
    obtain ⟨c, hc, he⟩ := List.mem_map.1 hmem
    cases he
    exact ⟨c.first, hsites.calls c hc⟩

/-- Calls that are not nested begin in the order in which they end. -/
theorem ListsFirst.begins (h : ListsFirst (fun j s => ∃ i, CallsAt ks i j s) ss) (hks : ¬Nests ks) :
    ListsFirst (fun i s => ∃ j, CallsAt ks i j s) ss where
  nodup := h.nodup
  mem_iff s := by rw [h.mem_iff, exists_comm]
  ordered := by
    refine h.ordered.imp fun {s t} hst => ?_
    obtain ⟨j, ⟨i, hs⟩, hfirst⟩ := hst
    refine ⟨i, ⟨j, hs⟩, fun i' ht => ?_⟩
    obtain ⟨j', ht⟩ := ht
    have hlt := hfirst j' ⟨i', ht⟩
    rcases Nat.lt_trichotomy i i' with hi | rfl | hi
    · exact hi
    · obtain ⟨rfl, _⟩ := hs.unique ht
      exact absurd hlt (Nat.lt_irrefl j)
    · exact absurd ⟨i', j', t, i, j, s, ht, hs, hi, hlt⟩ hks

end

end WordMachine.Source
