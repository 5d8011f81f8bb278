import Mathlib.Data.List.Pairwise

/-!
# Occurrences in order

What occurs at places can be listed in the order of the places. The list of a whole is made of what occurs
at its front and of the list of the rest, whose places are all moved by the length of the front.
-/

namespace WordMachine

variable {α : Type}

/-- What occurs, in the order of its places. -/
def ListsAll (P : Nat → α → Prop) (as : List α) : Prop :=
  ∃ places : List (Nat × α), places.map (·.2) = as ∧ places.Pairwise (fun p q => p.1 < q.1) ∧
    ∀ i a, P i a ↔ (i, a) ∈ places

section

variable {P Q : Nat → α → Prop} {as l : List α} {n : Nat}

theorem ListsAll.nil (h : ∀ i a, ¬P i a) : ListsAll P [] :=
  ⟨[], rfl, .nil, fun i a => by simp [h]⟩

theorem ListsAll.congr (h : ListsAll P as) (hPQ : ∀ i a, P i a ↔ Q i a) : ListsAll Q as := by
  obtain ⟨places, hplaces, hsorted, hP⟩ := h
  exact ⟨places, hplaces, hsorted, fun i a => (hPQ i a).symm.trans (hP i a)⟩

theorem ListsAll.behind (h : ListsAll Q as) (hn : 0 < n) (hlen : l.length ≤ 1)
    (hfront : ∀ i a, i < n → (P i a ↔ i = 0 ∧ a ∈ l)) (hrest : ∀ i a, P (n + i) a ↔ Q i a) :
    ListsAll P (l ++ as) := by
  obtain ⟨places, rfl, hsorted, hQ⟩ := h
  refine ⟨l.map ((0, ·)) ++ places.map fun p => (n + p.1, p.2), ?_, ?_, fun i a => ?_⟩
  · simp [Function.comp_def]
  · refine List.pairwise_append.2 ⟨?_, ?_, ?_⟩
    · match l with
      | [] | [_] => simp
    · exact List.pairwise_map.2 (hsorted.imp fun h => Nat.add_lt_add_left h n)
    · intro p hp q hq
      obtain ⟨a, _, rfl⟩ := List.mem_map.1 hp
      obtain ⟨r, _, rfl⟩ := List.mem_map.1 hq
      exact Nat.add_pos_left hn r.1
  · have hmem : (i, a) ∈ l.map ((0, ·)) ↔ i = 0 ∧ a ∈ l := by
      simp only [List.mem_map, Prod.mk.injEq]
      constructor
      · intro h
        obtain ⟨b, hb, rfl, rfl⟩ := h
        exact ⟨rfl, hb⟩
      · intro h
        exact ⟨a, h.2, h.1.symm, rfl⟩
    rw [List.mem_append, hmem]
    rcases Nat.lt_or_ge i n with hi | hi
    · have hnot : (i, a) ∉ places.map fun p => (n + p.1, p.2) := by
        intro hm
        obtain ⟨p, _, he⟩ := List.mem_map.1 hm
        have hle := congrArg Prod.fst he
        simp only at hle
        omega
      rw [hfront i a hi, or_iff_left hnot]
    · obtain ⟨j, rfl⟩ := Nat.exists_eq_add_of_le hi
      have hpos : ¬(n + j = 0 ∧ a ∈ l) := fun h => by omega
      rw [hrest, hQ, or_iff_right hpos]
      simp

theorem ListsAll.cons (h : ListsAll Q as) (hlen : l.length ≤ 1) (hfirst : ∀ a, P 0 a ↔ a ∈ l)
    (hrest : ∀ i a, P (i + 1) a ↔ Q i a) : ListsAll P (l ++ as) := by
  refine h.behind Nat.one_pos hlen (fun i a hi => ?_) fun i a => ?_
  · obtain rfl := Nat.lt_one_iff.1 hi
    simp [hfirst]
  · rw [Nat.add_comm, hrest]

end

/-! ### Runs -/

/-- A run of elements with a property stands at a place, and is as long as it can be on both sides. -/
def RunAt (p : α → Prop) (as : List α) (i : Nat) (run : List α) : Prop :=
  ∃ before after, as = before ++ (run ++ after) ∧ before.length = i ∧ run ≠ [] ∧ (∀ a ∈ run, p a) ∧
    (∀ a ∈ before.getLast?, ¬p a) ∧ ∀ a ∈ after.head?, ¬p a

section

variable {p : α → Prop} {as run run' rest : List α} {a : α} {i : Nat}

theorem not_runAt_nil : ¬RunAt p [] i run := by
  intro h
  obtain ⟨before, after, has, _, hrun, _⟩ := h
  simp only [List.nil_eq, List.append_eq_nil_iff] at has
  exact hrun has.2.1

theorem runAt_congr {q : α → Prop} (h : ∀ a ∈ as, p a ↔ q a) : RunAt p as i run ↔ RunAt q as i run := by
  have hside : ∀ {p q : α → Prop}, (∀ a ∈ as, p a ↔ q a) → RunAt p as i run → RunAt q as i run := by
    intro p q h hp
    obtain ⟨before, after, rfl, hi, hne, hrun, hbefore, hafter⟩ := hp
    simp only [List.forall_mem_append] at h
    obtain ⟨hb, hr, ha⟩ := h
    refine ⟨before, after, rfl, hi, hne, fun a hm => (hr a hm).1 (hrun a hm), ?_, ?_⟩
    · exact fun a hm => (hb a (List.mem_of_getLast? hm)).not.1 (hbefore a hm)
    · exact fun a hm => (ha a (List.mem_of_mem_head? hm)).not.1 (hafter a hm)
  exact ⟨hside h, hside fun a ha => (h a ha).symm⟩

theorem not_runAt_zero (ha : ¬p a) : ¬RunAt p (a :: as) 0 run := by
  intro h
  obtain ⟨before, after, has, hi, hne, hrun, _⟩ := h
  obtain rfl := List.eq_nil_of_length_eq_zero hi
  cases run with
  | nil => exact hne rfl
  | cons b run =>
    obtain rfl := (List.cons.inj has).1
    exact ha (hrun a List.mem_cons_self)

theorem runAt_cons (ha : ¬p a) : RunAt p (a :: as) (i + 1) run ↔ RunAt p as i run := by
  constructor
  · intro h
    obtain ⟨_ | ⟨b, before⟩, after, has, hi, hne, hrun, hbefore, hafter⟩ := h
    · cases hi
    · refine ⟨before, after, (List.cons.inj has).2, Nat.succ.inj hi, hne, hrun, fun c hc => ?_, hafter⟩
      exact hbefore c (by rw [List.getLast?_cons, hc]; rfl)
  · intro h
    obtain ⟨before, after, rfl, rfl, hne, hrun, hbefore, hafter⟩ := h
    refine ⟨a :: before, after, rfl, rfl, hne, hrun, fun c hc => ?_, hafter⟩
    rw [List.getLast?_cons] at hc
    cases hl : before.getLast? with
    | none =>
      rw [hl] at hc
      cases hc
      exact ha
    | some d =>
      rw [hl] at hc
      cases hc
      exact hbefore d hl

theorem eq_of_append_eq {u v us vs : List α} (hu : ∀ a ∈ u, p a) (hv : ∀ a ∈ v, p a)
    (hus : ∀ a ∈ us.head?, ¬p a) (hvs : ∀ a ∈ vs.head?, ¬p a) (h : u ++ us = v ++ vs) : u = v := by
  induction u generalizing v with
  | nil =>
    cases v with
    | nil => rfl
    | cons b v =>
      rw [List.nil_append] at h
      exact absurd (hv b List.mem_cons_self) (hus b (by rw [h]; rfl))
  | cons a u ih =>
    cases v with
    | nil =>
      rw [List.nil_append] at h
      exact absurd (hu a List.mem_cons_self) (hvs a (by rw [← h]; rfl))
    | cons b v =>
      obtain ⟨rfl, htail⟩ := List.cons.inj h
      rw [ih (fun c hc => hu c (.tail a hc)) (fun c hc => hv c (.tail a hc)) htail]

/-- A run at the front is the only one that begins in it. -/
theorem runAt_front (hne : run ≠ []) (hrun : ∀ a ∈ run, p a) (hrest : ∀ a ∈ rest.head?, ¬p a)
    (hi : i < run.length) : RunAt p (run ++ rest) i run' ↔ i = 0 ∧ run' = run := by
  constructor
  · intro h
    obtain ⟨before, after, has, rfl, _, hrun', hbefore, hafter⟩ := h
    have hbound : before <+: run ++ rest := has ▸ List.prefix_append _ _
    obtain ⟨middle, hmiddle⟩ :=
      List.prefix_of_prefix_length_le hbound (List.prefix_append run rest) (Nat.le_of_lt hi)
    have hnil : before = [] := by
      cases hl : before.getLast? with
      | none => exact List.getLast?_eq_none_iff.1 hl
      | some b =>
        have hb : b ∈ run := hmiddle ▸ List.mem_append_left middle (List.mem_of_getLast? hl)
        exact absurd (hrun b hb) (hbefore b hl)
    subst hnil
    exact ⟨rfl, (eq_of_append_eq hrun hrun' hrest hafter has).symm⟩
  · intro h
    obtain ⟨rfl, rfl⟩ := h
    exact ⟨[], rest, rfl, rfl, hne, hrun, by simp, hrest⟩

theorem runAt_append (hrest : ∀ a ∈ rest.head?, ¬p a) :
    RunAt p (run ++ rest) (run.length + i) run' ↔ RunAt p rest i run' := by
  constructor
  · intro h
    obtain ⟨before, after, has, hi, hne, hrun', hbefore, hafter⟩ := h
    have hbound : before <+: run ++ rest := has ▸ List.prefix_append _ _
    obtain ⟨before, rfl⟩ :=
      List.prefix_of_prefix_length_le (List.prefix_append run rest) hbound (by omega)
    rw [List.append_assoc] at has
    rw [List.length_append] at hi
    refine ⟨before, after, List.append_cancel_left has, by omega, hne, hrun', fun b hb => ?_, hafter⟩
    exact hbefore b (by rw [List.getLast?_append, hb]; rfl)
  · intro h
    obtain ⟨before, after, rfl, rfl, hne, hrun', hbefore, hafter⟩ := h
    refine ⟨run ++ before, after, by rw [List.append_assoc], by rw [List.length_append], hne, hrun', ?_,
      hafter⟩
    intro b hb
    rw [List.getLast?_append] at hb
    cases hl : before.getLast? with
    | some c =>
      rw [hl] at hb
      cases hb
      exact hbefore b hl
    | none =>
      -- what follows the run at the front begins with the other one
      obtain rfl := List.getLast?_eq_none_iff.1 hl
      cases run' with
      | nil => exact absurd rfl hne
      | cons c run' => exact absurd (hrun' c List.mem_cons_self) (hrest c rfl)

end

end WordMachine
