import WordMachine.Proofs.Assembly.Passes

/-!
# Two passes

A program is assembled by a first pass that fills the table and a second that reads it. Together they
compute the layout of the program, or stop at the first line that is wrong.
-/

namespace WordMachine.Assembly

/-- The first pass over a text records all labels, or stops at the first line that cannot be read or
cannot stand after the lines before it. -/
theorem pass_first (text : String) :
    (∃ ls bytes t, Reads (lines text) ls ∧ Valid ls ∧ t.Records ls ∧ Spells ls bytes ∧
      pass false .empty text = (.ok bytes, t)) ∨
    ∃ i ls line e t, (lines text)[i]? = some line ∧ Reads ((lines text).take i) ls ∧ Valid ls ∧
      (∀ l, Line.read line = .ok l → ¬ l.ValidAfter ls) ∧
      pass false .empty text = (.error ⟨i + 1, e⟩, t) := by
  obtain ⟨ls, bytes, t, hread, hv, ht, hs, hp⟩ | ⟨i, ls, line, e, t, hi, hread, hv, hbad, hp⟩ :=
    @passFrom_first (lines text) [] .empty 1 records_empty valid_nil
  · exact .inl ⟨ls, bytes, t, hread, hv, ht, hs, hp⟩
  · exact .inr ⟨i, ls, line, e, t, hi, hread, hv, hbad, by rw [Nat.add_comm i]; exact hp⟩

/-- A pass over a text with the table of its first pass gives the bytes of the layout, or stops at the
first label that no line declares. -/
theorem pass_later {text : String} {t : Labels} {ls : List Line} (hr : Reads (lines text) ls)
    (hv : Valid ls) (ht : t.Records ls) :
    (references ls ⊆ declarations ls ∧ ∀ last, pass last t text = (.ok (image ls), t)) ∨
    ∃ i l name, ls[i]? = some l ∧ l.reference? = some name ∧ name ∉ declarations ls ∧
      references (ls.take i) ⊆ declarations ls ∧
      pass true t text = (.error ⟨i + 1, .undeclaredLabel name⟩, t) := by
  obtain ⟨hrefs, hp⟩ | ⟨i, l, name, hi, hl, hn, hrefs, hp⟩ :=
    passFrom_later 1 ht hv (List.nil_append ls).symm hr
  · exact .inl ⟨hrefs, fun last => by rw [image_eq]; exact hp last⟩
  · exact .inr ⟨i, l, name, hi, hl, hn, hrefs, by rw [Nat.add_comm i]; exact hp⟩

section

variable {text : String} {t : Labels} {ls ks : List Line} {texts : List (List Char)}

theorem Reads.unique (hl : Reads texts ls) (hk : Reads texts ks) : ls = ks :=
  (List.map_inj_right fun _ _ => Except.ok.inj).1 (hl.symm.trans hk)

theorem Reads.take (h : Reads texts ls) (i : Nat) : Reads (texts.take i) (ls.take i) := by
  rw [Reads, List.map_take, h, List.map_take]

theorem Reads.get? (h : Reads texts ls) {i : Nat} {line : List Char} (hi : texts[i]? = some line) :
    ∃ l, ls[i]? = some l ∧ Line.read line = .ok l := by
  have hget := congrArg (·[i]?) h
  simp only [List.getElem?_map, hi, Option.map_some] at hget
  obtain ⟨l, hl, he⟩ := Option.map_eq_some_iff.1 hget.symm
  exact ⟨l, hl, he.symm⟩

theorem pass_first_of_valid (hr : Reads (lines text) ls) (hv : Valid ls) :
    ∃ bytes t, pass false .empty text = (.ok bytes, t) ∧ t.Records ls := by
  obtain ⟨ks, bytes, t, hks, _, ht, _, hp⟩ | ⟨i, ks, line, e, t, hi, hks, _, hbad, _⟩ := pass_first text
  · rw [hks.unique hr] at ht
    exact ⟨bytes, t, hp, ht⟩
  · obtain ⟨l, hl, hline⟩ := hr.get? hi
    refine absurd ?_ (hbad l hline)
    rw [hks.unique (hr.take i)]
    exact hv i l hl

theorem pass_later_of_declared (hr : Reads (lines text) ls) (hv : Valid ls) (ht : t.Records ls)
    (hrefs : references ls ⊆ declarations ls) (last : Bool) :
    pass last t text = (.ok (image ls), t) := by
  obtain ⟨_, hp⟩ | ⟨i, l, name, hi, hl, hn, _⟩ := pass_later hr hv ht
  · exact hp last
  · exact absurd (hrefs (List.mem_filterMap.2 ⟨l, List.mem_of_getElem? hi, hl⟩)) hn

/-- A text assembles if its lines can be read, each can stand after those before it and every label in
an instruction is declared. Its program then has the bytes of the layout. -/
theorem assemble_eq_ok_iff {b : List UInt8} : assemble text = .ok b ↔
    ∃ ls, Reads (lines text) ls ∧ Valid ls ∧ references ls ⊆ declarations ls ∧ image ls = b := by
  constructor
  · intro h
    obtain ⟨ls, _, t, hr, hv, ht, _, hp⟩ | ⟨_, _, _, _, _, _, _, _, _, hp⟩ := pass_first text
    · rw [assemble, hp] at h
      dsimp only at h
      obtain ⟨hrefs, hall⟩ | ⟨_, _, _, _, _, _, _, hstop⟩ := pass_later hr hv ht
      · rw [hall] at h
        exact ⟨ls, hr, hv, hrefs, Except.ok.inj h⟩
      · rw [hstop] at h
        cases h
    · rw [assemble, hp] at h
      cases h
  · rintro ⟨ls, hr, hv, hrefs, rfl⟩
    obtain ⟨_, t, hp, ht⟩ := pass_first_of_valid hr hv
    rw [assemble, hp]
    dsimp only
    rw [pass_later_of_declared hr hv ht hrefs]

end

/-- If the first pass over a text does not fail, then its labels are recorded at their offsets, and
the second pass gives the bytes of the layout, or stops at the first label that no line declares. It
leaves the table as it is, so every later pass gives the same again. If the first pass fails, then at
the first line that cannot be read or cannot stand after the lines before it. -/
theorem passes_compute_layout (text : String) :
    (∀ first labels, pass false .empty text = (.ok first, labels) →
      ∃ ls, Reads (lines text) ls ∧ Valid ls ∧ labels.Records ls ∧
        (∀ name o, DeclaredAt ls name o → o < 4294967296 ∧ offsetOf ls name = o) ∧
        ((references ls ⊆ declarations ls ∧
            (image ls).length = first.length ∧
            (∀ k, (image ls)[k]? ≠ first[k]? → InLabel ls k) ∧
            pass true labels text = (.ok (image ls), labels)) ∨
          ∃ i l name, ls[i]? = some l ∧ l.reference? = some name ∧ name ∉ declarations ls ∧
            references (ls.take i) ⊆ declarations ls ∧
            pass true labels text = (.error ⟨i + 1, .undeclaredLabel name⟩, labels)) ∧
        ∀ n, pass true (Nat.repeat (fun t => (pass true t text).2) n labels) text =
          pass true labels text) ∧
    ∀ e labels, pass false .empty text = (.error e, labels) →
      ∃ i line ls, (lines text)[i]? = some line ∧ e.line = i + 1 ∧
        Reads ((lines text).take i) ls ∧ Valid ls ∧
        ∀ l, Line.read line = .ok l → ¬ l.ValidAfter ls := by
  constructor
  · intro first labels h
    obtain ⟨ls, bytes, t, hread, hv, ht, hs, hp⟩ | ⟨_, _, _, _, _, _, _, _, _, hp⟩ := pass_first text
    · rw [h] at hp
      obtain ⟨hb, rfl⟩ := Prod.mk.inj hp
      cases hb
      have hlater := pass_later hread hv ht
      have hkeep : (pass true labels text).2 = labels := by
        obtain ⟨_, hlater⟩ | ⟨_, _, _, _, _, _, _, hlater⟩ := hlater <;> rw [hlater]
      refine ⟨ls, hread, hv, ht, fun name o hd => ⟨hv.lt hd, hv.offsetOf_eq hd⟩, ?_, fun n => ?_⟩
      · refine hlater.imp_left fun ⟨hrefs, hall⟩ => ⟨hrefs, ?_, fun k hk => ?_, hall true⟩
        · rw [(spells_image ls).length_eq, hs.length_eq]
        · exact (spells_image ls).inLabel hs hk
      · have hn : Nat.repeat (fun t => (pass true t text).2) n labels = labels := by
          induction n with
          | zero => rfl
          | succ n ih =>
            rw [Nat.repeat, ih]
            exact hkeep
        rw [hn]
    · rw [h] at hp
      cases hp
  · intro e labels h
    obtain ⟨_, _, _, _, _, _, _, hp⟩ | ⟨i, ls, line, e', t, hi, hread, hv, hbad, hp⟩ := pass_first text
    · rw [h] at hp
      cases hp
    · rw [h] at hp
      cases hp
      exact ⟨i, line, ls, hi, rfl, hread, hv, hbad⟩

/-- A jump to a label further down, and a label that stands at two offsets. -/
theorem passes_compute_layout_forward :
    (∃ first labels ls, pass false .empty "jmp @skip\nnop\n@skip\n@skip\nret\n" = (.ok first, labels) ∧
      Reads (lines "jmp @skip\nnop\n@skip\n@skip\nret\n") ls ∧
      pass true labels "jmp @skip\nnop\n@skip\n@skip\nret\n" = (.ok (image ls), labels) ∧
      image ls ≠ first ∧ ∀ k, (image ls)[k]? ≠ first[k]? → InLabel ls k) ∧
    ∃ e labels i line, pass false .empty "@twice\nnop\n@twice\n" = (.error e, labels) ∧
      (lines "@twice\nnop\n@twice\n")[i]? = some line ∧ e.line = i + 1 := by
  constructor
  · have h : pass false .empty "jmp @skip\nnop\n@skip\n@skip\nret\n" =
        (.ok [30, 0, 0, 0, 0, 0, 29], ⟨[("@skip", 6)]⟩) := by rfl
    have h₂ : (pass true ⟨[("@skip", 6)]⟩ "jmp @skip\nnop\n@skip\n@skip\nret\n").1 =
        .ok [30, 6, 0, 0, 0, 0, 29] := by rfl
    obtain ⟨ls, hread, _, _, _, ⟨_, _, hin, hp⟩ | ⟨_, _, _, _, _, _, _, hp⟩, _⟩ :=
      (passes_compute_layout _).1 _ _ h
    · refine ⟨_, _, ls, h, hread, hp, ?_, hin⟩
      rw [hp] at h₂
      rw [Except.ok.inj h₂]
      decide
    · rw [hp] at h₂
      cases h₂
  · have h : pass false .empty "@twice\nnop\n@twice\n" =
        (.error ⟨3, .labelRedeclared "@twice"⟩, ⟨[("@twice", 0)]⟩) := by rfl
    obtain ⟨i, line, _, hi, he, _⟩ := (passes_compute_layout _).2 _ _ h
    exact ⟨_, _, i, line, h, hi, he⟩

end WordMachine.Assembly
