import WordMachine.Proofs.Assembly.Reading
import WordMachine.Proofs.Assembly.TwoPasses

/-!
# Assembling lines that were written

The text of a program has a line feed after every line, so it is read as the lines of the program and a
blank one after them, which changes nothing.
-/

namespace WordMachine.Assembly

/-! ### Lines of a rendered program -/

theorem newline_not_mem_text {line : Line} (h : line.Clean) : '\n' ∉ line.text.toList := by
  have hnot : ∀ {ws : List String}, (∀ w ∈ ws, CleanWord w) → '\n' ∉ spaced ws := by
    intro ws hws hm
    cases ws with
    | nil => cases hm
    | cons w ws =>
      simp only [spaced, List.mem_append, List.mem_flatMap, List.mem_cons] at hm
      have hc : ∀ x ∈ w :: ws, '\n' ∉ x.toList := fun x hx hn =>
        absurd ((hws x hx).2 _ hn) (by decide)
      obtain hw | ⟨x, hx, he | hx'⟩ := hm
      · exact hc w (List.mem_cons_self ..) hw
      · exact absurd he (by decide)
      · exact hc x (List.mem_cons_of_mem _ hx) hx'
  cases line with
  | blank => simp [Line.text]
  | label name =>
    have hw : ∀ w ∈ [name], CleanWord w := by simpa using h.2
    simpa [spaced, Line.text] using hnot hw
  | instruction i =>
    rw [Line.text, toList_text]
    exact hnot (List.forall_mem_cons.2 ⟨(cleanWord_mnemonic i.opcode).1, cleanWord_operands h⟩)

theorem lines_render {code : List Line} (h : ∀ line ∈ code, line.Clean) :
    lines (render code) = code.map (fun line => line.text.toList) ++ [[]] := by
  rw [lines, render]
  induction code with
  | nil => rfl
  | cons line code ih =>
    obtain ⟨hl, hc⟩ := List.forall_mem_cons.1 h
    have hn : "\n".toList = ['\n'] := rfl
    rw [List.map_cons, String.join_cons, String.toList_append, String.toList_append,
      List.append_assoc, hn, List.singleton_append,
      List.splitOn_append_cons_self_of_not_mem (newline_not_mem_text hl), ih hc]
    rfl

theorem reads_render {code : List Line} (hc : ∀ line ∈ code, line.Clean)
    (hf : ∀ line ∈ code, line.Fits) : Reads (lines (render code)) (code ++ [.blank]) := by
  rw [Reads, lines_render hc, List.map_append, List.map_append, List.map_map]
  have hread : code.map (Line.read ∘ fun line => line.text.toList) = code.map .ok :=
    List.map_congr_left fun line hl => (read_text (hc line hl)).2 ⟨rfl, hf line hl⟩
  rw [hread]
  rfl

/-! ### A blank line at the end -/

section

variable {ls : List Line} {name : String} {o : Nat}

theorem declaredAt_concat_blank : DeclaredAt (ls ++ [.blank]) name o ↔ DeclaredAt ls name o := by
  simp [declaredAt_concat]

theorem declarations_concat_blank (ls : List Line) :
    declarations (ls ++ [.blank]) = declarations ls := by
  rw [declarations_append]
  exact List.append_nil _

theorem references_concat_blank (ls : List Line) :
    references (ls ++ [.blank]) = references ls := by
  rw [references_append]
  exact List.append_nil _

theorem offsetOf_concat_blank (ls : List Line) (name : String) :
    offsetOf (ls ++ [.blank]) name = offsetOf ls name := by
  rw [offsetOf, offsetOf, List.takeWhile_append]
  split
  · next h =>
    rw [(List.takeWhile_prefix _).eq_of_length h]
    simp [Line.size]
  · rfl

theorem resolved_concat_blank (ls : List Line) :
    resolved (ls ++ [.blank]) = resolved ls := by
  have hw : Value.word (ls ++ [.blank]) = Value.word ls := by
    funext v
    cases v with
    | number n => rfl
    | label name => rw [Value.word, offsetOf_concat_blank, Value.word]
  have hi : instructionLines (ls ++ [.blank]) = instructionLines ls := by
    rw [instructionLines, List.filterMap_append]
    exact List.append_nil _
  rw [resolved, resolved, hw, hi]

theorem image_concat_blank (ls : List Line) : image (ls ++ [.blank]) = image ls := by
  rw [image, image, resolved_concat_blank]

theorem Valid.concat_blank (h : Valid ls) : Valid (ls ++ [.blank]) := valid_concat h trivial

end

/-- Clean lines that stand one after another and declare every label they refer to are assembled to the
bytes of their layout. -/
theorem assemble_render {code : List Line} (hc : ∀ line ∈ code, line.Clean)
    (hf : ∀ line ∈ code, line.Fits) (hv : Valid code) (hr : references code ⊆ declarations code) :
    assemble (render code) = .ok (image code) :=
  assemble_eq_ok_iff.2 ⟨_, reads_render hc hf, hv.concat_blank,
    by rwa [references_concat_blank, declarations_concat_blank], image_concat_blank code⟩

end WordMachine.Assembly
