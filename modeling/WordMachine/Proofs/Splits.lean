/-!
# Splits of lists

Where an element of a list lies if the list is made of two, and which element comes last before a rest
that two splits have in common.
-/

namespace WordMachine

variable {α : Type} {as bs before after rest : List α} {a b : α}

/-- The elements before a place and those behind it. -/
theorem exists_append_of_getElem? {xs : List α} {i : Nat} (h : xs[i]? = some a) :
    ∃ as bs, xs = as ++ a :: bs ∧ as.length = i := by
  rcases List.getElem?_eq_some_iff.1 h with ⟨hi, rfl⟩
  refine ⟨xs.take i, xs.drop (i + 1), ?_, List.length_take_of_le (Nat.le_of_lt hi)⟩
  rw [← List.drop_eq_getElem_cons hi, List.take_append_drop]

theorem append_eq_append_cons (h : as ++ bs = before ++ a :: after) :
    (∃ rest, as = before ++ a :: rest ∧ after = rest ++ bs) ∨
      ∃ rest, before = as ++ rest ∧ bs = rest ++ a :: after := by
  rcases List.append_eq_append_iff.1 h with ⟨rest, hbefore, hbs⟩ | ⟨rest, has, hrest⟩
  · exact .inr ⟨rest, hbefore, hbs⟩
  · cases rest with
    | nil => exact .inr ⟨[], by simpa using has.symm, hrest.symm⟩
    | cons b rest =>
      cases hrest
      exact .inl ⟨rest, has, rfl⟩

theorem concat_eq_append_cons (h : before ++ [a] = as ++ b :: bs) :
    bs = [] ∧ before = as ∧ a = b ∨ ∃ cs, bs = cs ++ [a] ∧ before = as ++ b :: cs := by
  rcases List.eq_nil_or_concat bs with rfl | ⟨cs, c, rfl⟩
  · rcases List.append_inj' h rfl with ⟨hbefore, ha⟩
    cases ha
    exact .inl ⟨rfl, hbefore, rfl⟩
  · have hconcat : before ++ [a] = (as ++ b :: cs) ++ [c] := by simpa using h
    rcases List.append_inj' hconcat rfl with ⟨hbefore, hc⟩
    cases hc
    exact .inr ⟨cs, List.concat_eq_append, hbefore⟩

theorem append_cons_eq_append_cons (h : before ++ a :: rest = as ++ b :: (bs ++ rest)) :
    bs = [] ∧ before = as ∧ a = b ∨ ∃ cs, bs = cs ++ [a] ∧ before = as ++ b :: cs := by
  have hsplit : (before ++ [a]) ++ rest = (as ++ b :: bs) ++ rest := by simpa using h
  exact concat_eq_append_cons (List.append_cancel_right hsplit)

end WordMachine
