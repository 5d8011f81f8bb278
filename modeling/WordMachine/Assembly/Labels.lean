import WordMachine.Word

/-!
# Label tables

A label table records the offset of each label. A recorded label keeps its offset: recording it again
at that offset changes nothing, and at another offset is refused.
-/

namespace WordMachine.Assembly

structure Labels where
  entries : List (String × Word)
deriving DecidableEq

namespace Labels

def empty : Labels := ⟨[]⟩

def get? (t : Labels) (name : String) : Option Word := t.entries.lookup name

def size (t : Labels) : Nat := t.entries.length

/-- Records a label, or fails with the other offset at which it stands already. -/
def insert (t : Labels) (name : String) (offset : Word) : Except Word Labels :=
  match t.get? name with
  | none => .ok ⟨(name, offset) :: t.entries⟩
  | some old => if old = offset then .ok t else .error old

@[simp] theorem get?_empty (name : String) : empty.get? name = none := rfl

theorem get?_of_insert {t u : Labels} {name : String} {offset : Word}
    (h : t.insert name offset = .ok u) (other : String) :
    u.get? other = if other = name then some offset else t.get? other := by
  cases hg : t.get? name with
  | none =>
    simp only [insert, hg, Except.ok.injEq] at h
    subst h
    by_cases ho : other = name
    · simp [get?, ho]
    · have hb : (other == name) = false := by simpa using ho
      simp [get?, List.lookup_cons, hb, ho]
  | some old =>
    by_cases hold : old = offset
    · simp only [insert, hg, hold, if_true, Except.ok.injEq] at h
      subst h
      by_cases ho : other = name
      · simp [ho, hg, hold]
      · simp [ho]
    · simp [insert, hg, hold] at h

theorem insert_eq_error_iff {t : Labels} {name : String} {offset old : Word} :
    t.insert name offset = .error old ↔ t.get? name = some old ∧ old ≠ offset := by
  cases hg : t.get? name with
  | none => simp [insert, hg]
  | some o =>
    by_cases ho : o = offset
    · subst ho
      simp only [insert, hg, if_true, Option.some.injEq]
      exact ⟨fun h => (nomatch h), fun h => absurd h.1.symm h.2⟩
    · simp only [insert, hg, ho, if_false, Except.error.injEq, Option.some.injEq]
      exact ⟨fun h => ⟨h, h ▸ ho⟩, And.left⟩

end Labels

end WordMachine.Assembly
