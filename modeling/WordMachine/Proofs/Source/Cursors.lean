import WordMachine.Proofs.Source.Partition
import WordMachine.Source.ByteCursor

/-!
# Moves of a cursor

However a cursor is moved, its byte offset stays between two characters of the text, so that no move ever
fails: what is unread is the rest of the text from the end of a character on, and line and column count the
characters passed. A run of characters is taken at once, which is the same as taking one after another as
long as they satisfy the condition.

The moves are those of a cursor over characters (`moves_of_chars`).
-/

namespace WordMachine.Source

/-! ### Places in a text -/

theorem utf8ByteSize_ofList_cons (c : Char) (cs : List Char) :
    (String.ofList (c :: cs)).utf8ByteSize = c.utf8Size + (String.ofList cs).utf8ByteSize := by
  rw [String.ofList_cons, String.utf8ByteSize_append, String.utf8ByteSize_singleton]

theorem utf8ByteSize_ofList_eq_zero {cs : List Char} : (String.ofList cs).utf8ByteSize = 0 ↔ cs = [] := by
  rw [String.utf8ByteSize_eq_zero_iff, ← String.toList_eq_nil_iff, String.toList_ofList]

/-- There are two parts of a text exactly at the end of a prefix. -/
theorem splitAt_eq_ok_iff {text s t : String} {offset : Nat} :
    splitAt text offset = .ok (s, t) ↔ text = s ++ t ∧ offset = s.utf8ByteSize := by
  constructor
  · intro h
    rw [splitAt] at h
    split at h
    · next hvalid =>
      have hsplits := String.Pos.splits (⟨⟨offset⟩, hvalid⟩ : text.Pos)
      cases h
      exact ⟨hsplits.eq_append, congrArg String.Pos.Raw.byteIdx hsplits.offset_eq_rawEndPos⟩
    · cases h
  · rintro ⟨rfl, rfl⟩
    have hvalid : (String.Pos.Raw.mk s.utf8ByteSize).IsValid (s ++ t) :=
      String.Pos.Raw.isValid_iff_exists_append.2 ⟨s, t, rfl, rfl⟩
    have hsplits : String.Pos.Splits (⟨⟨s.utf8ByteSize⟩, hvalid⟩ : (s ++ t).Pos) s t := ⟨rfl, rfl⟩
    have hparts := (String.Pos.splits _).eq hsplits
    rw [splitAt, dif_pos hvalid]
    exact congrArg Except.ok (Prod.ext hparts.1 hparts.2)

/-- The characters before the first one that fails a condition end at its byte offset. -/
theorem offset?_getD (p : Char → Bool) (cs : List Char) :
    (offset? (fun c => !p c) cs).getD (String.ofList cs).utf8ByteSize =
      (String.ofList (cs.takeWhile p)).utf8ByteSize := by
  induction cs with
  | nil => rfl
  | cons c cs ih =>
    by_cases hc : p c = true
    · rw [List.takeWhile_cons_of_pos hc, utf8ByteSize_ofList_cons, utf8ByteSize_ofList_cons, ← ih,
        offset?, if_neg (by simp [hc])]
      cases offset? (fun c => !p c) cs with
      | none => rfl
      | some n => rfl
    · rw [List.takeWhile_cons_of_neg hc, offset?, if_pos (by simp [hc])]
      rfl

/-! ### Moves over characters -/

/-- What is done with a cursor. -/
inductive Move
  | next
  | peek
  | trimLeft
  | skipLine
  | run (p : Char → Bool)

namespace Cursor

def move (k : Cursor) : Move → Cursor
  | .next => k.next.2
  | .peek => k
  | .trimLeft => k.trimLeft
  | .skipLine => k.skipLine
  | .run p => (k.run? p).2

def moves (k : Cursor) (ms : List Move) : Cursor := ms.foldl move k

theorem run?_fst (p : Char → Bool) (k : Cursor) : (k.run? p).1 =
    if k.rest.takeWhile p = [] then none else some (k.rest.takeWhile p) := by
  have htaken : (k.takeWhile p).1 = k.rest.takeWhile p := rfl
  rw [run?, ← htaken]
  split
  · next h => simp [h]
  · next h => simp [h]

theorem run?_snd (p : Char → Bool) (k : Cursor) : (k.run? p).2 = (k.takeWhile p).2 := by
  rw [run?]
  split
  · next h => rw [h]
  · next h => rw [h]

theorem movesTo_move (k : Cursor) (m : Move) : k.MovesTo (k.move m) := by
  cases m with
  | next => exact movesTo_next k
  | peek => exact movesTo_refl
  | trimLeft => exact movesTo_takeWhile isBlank k
  | skipLine => exact movesTo_takeWhile (· != '\n') k
  | run p =>
    rw [move, run?_snd]
    exact movesTo_takeWhile p k

theorem movesTo_moves (k : Cursor) (ms : List Move) : k.MovesTo (k.moves ms) := by
  induction ms generalizing k with
  | nil => exact movesTo_refl
  | cons m ms ih => exact (movesTo_move k m).trans (ih (k.move m))

end Cursor

/-! ### Moves over bytes -/

namespace ByteCursor

def chars (k : ByteCursor) : Except Misplaced Cursor := do
  let rest ← k.unread
  return ⟨rest.toList, k.location⟩

def past (k : ByteCursor) (passed : List Char) : ByteCursor :=
  ⟨k.text, k.position + (String.ofList passed).utf8ByteSize, k.location.through passed⟩

variable {k after : ByteCursor} {l : Cursor} {p : Char → Bool} {text : String} {c : Char}
  {cs rest : List Char} {here : Location}

theorem past_nil (k : ByteCursor) : k.past [] = k := rfl

theorem past_append (k : ByteCursor) (cs ds : List Char) : k.past (cs ++ ds) = (k.past cs).past ds := by
  rw [past, String.ofList_append, String.utf8ByteSize_append, ← Nat.add_assoc, Location.through,
    List.foldl_append]
  rfl

theorem unread_eq_ok_iff {s : String} : k.unread = .ok s ↔
    ∃ passed, k.text = passed ++ s ∧ k.position = passed.utf8ByteSize := by
  constructor
  · intro h
    cases hsplit : splitAt k.text k.position with
    | error e =>
      rw [unread, hsplit] at h
      cases h
    | ok parts =>
      rw [unread, hsplit] at h
      cases h
      exact ⟨parts.1, splitAt_eq_ok_iff.1 hsplit⟩
  · rintro ⟨passed, h⟩
    rw [unread, splitAt_eq_ok_iff.2 h]
    rfl

theorem unread_of_chars (h : k.chars = .ok l) : k.unread = .ok (String.ofList l.rest) := by
  cases hunread : k.unread with
  | error e =>
    rw [chars, hunread] at h
    cases h
  | ok s =>
    rw [chars, hunread] at h
    cases h
    rw [String.ofList_toList]

theorem location_of_chars (h : k.chars = .ok l) : k.location = l.location := by
  rw [chars, unread_of_chars h] at h
  exact congrArg Cursor.location (Except.ok.inj h)

theorem chars_past (h : k.chars = .ok ⟨cs ++ rest, here⟩) :
    (k.past cs).chars = .ok ⟨rest, here.through cs⟩ := by
  obtain ⟨passed, htext, hposition⟩ := unread_eq_ok_iff.1 (unread_of_chars h)
  have hunread : (k.past cs).unread = .ok (String.ofList rest) := by
    refine unread_eq_ok_iff.2 ⟨passed ++ String.ofList cs, ?_, ?_⟩
    · rw [past, htext, String.ofList_append, String.append_assoc]
    · rw [past, hposition, String.utf8ByteSize_append]
  have hlocation : (k.past cs).location = here.through cs := by
    rw [past, location_of_chars h]
  rw [chars, hunread, hlocation]
  exact congrArg (fun cs => Except.ok (Cursor.mk cs _)) (String.toList_ofList)

theorem peek_of_chars (h : k.chars = .ok l) : k.peek = .ok l.peek := by
  rw [peek, unread_of_chars h]
  exact congrArg (fun cs : List Char => Except.ok cs.head?) String.toList_ofList

theorem next_of_nil (h : k.chars = .ok ⟨[], here⟩) : k.next = .ok (none, k) := by
  rw [next, peek_of_chars h]
  rfl

theorem next_of_cons (h : k.chars = .ok ⟨c :: cs, here⟩) : k.next = .ok (some c, k.past [c]) := by
  rw [next, peek_of_chars h, past, utf8ByteSize_ofList_cons]
  rfl

theorem run?_of_chars (h : k.chars = .ok l) (p : Char → Bool) : k.run? p =
    .ok ((l.run? p).1.map String.ofList, k.past (l.rest.takeWhile p)) := by
  have hstop := offset?_getD p l.rest
  have hsplit : splitAt (String.ofList l.rest) (String.ofList (l.rest.takeWhile p)).utf8ByteSize =
      .ok (String.ofList (l.rest.takeWhile p), String.ofList (l.rest.dropWhile p)) := by
    refine splitAt_eq_ok_iff.2 ⟨?_, rfl⟩
    rw [← String.ofList_append, List.takeWhile_append_dropWhile]
  rw [run?, unread_of_chars h]
  simp only [bind, Except.bind, String.toList_ofList, hstop, utf8ByteSize_ofList_eq_zero, hsplit]
  by_cases hnil : l.rest.takeWhile p = []
  · rw [if_pos hnil, Cursor.run?_fst, if_pos hnil, hnil]
    rfl
  · rw [if_neg hnil, Cursor.run?_fst, if_neg hnil]
    rfl

/-! ### Runs -/

theorem exists_of_next (h : k.next = .ok (some c, after)) :
    after = k.past [c] ∧ ∃ cs here, k.chars = .ok ⟨c :: cs, here⟩ := by
  cases hunread : k.unread with
  | error e =>
    rw [next, peek, hunread] at h
    cases h
  | ok s =>
    have hchars : k.chars = .ok ⟨s.toList, k.location⟩ := by rw [chars, hunread]; rfl
    cases hs : s.toList with
    | nil =>
      rw [hs] at hchars
      rw [next_of_nil hchars] at h
      cases h
    | cons d cs =>
      rw [hs] at hchars
      rw [next_of_cons hchars] at h
      cases h
      exact ⟨rfl, cs, _, hchars⟩

theorem left_lt_of_next (h : k.next = .ok (some c, after)) :
    after.text.utf8ByteSize - after.position < k.text.utf8ByteSize - k.position := by
  obtain ⟨rfl, cs, here, hchars⟩ := exists_of_next h
  obtain ⟨passed, htext, hposition⟩ := unread_eq_ok_iff.1 (unread_of_chars hchars)
  have hsize : k.text.utf8ByteSize = k.position + (c.utf8Size + (String.ofList cs).utf8ByteSize) := by
    rw [htext, String.utf8ByteSize_append, utf8ByteSize_ofList_cons, hposition]
  have hc := c.utf8Size_pos
  have hnil : (String.ofList []).utf8ByteSize = 0 := rfl
  simp only [past, utf8ByteSize_ofList_cons, hnil]
  omega

/-- Reads one character after another, as long as the next one satisfies a condition. -/
def nextWhile (p : Char → Bool) (k : ByteCursor) : Except Misplaced (List Char × ByteCursor) :=
  match h : k.next with
  | .error e => .error e
  | .ok (none, _) => .ok ([], k)
  | .ok (some c, after) =>
    if p c then
      have := left_lt_of_next h
      (after.nextWhile p).map fun run => (c :: run.1, run.2)
    else .ok ([], k)
termination_by k.text.utf8ByteSize - k.position

theorem nextWhile_of_nil (h : k.chars = .ok ⟨[], here⟩) (p : Char → Bool) :
    k.nextWhile p = .ok ([], k) := by
  have hnext := next_of_nil h
  rw [nextWhile]
  split
  · next h' => cases hnext.symm.trans h'
  · rfl
  · next h' => cases hnext.symm.trans h'

theorem nextWhile_of_cons (h : k.chars = .ok ⟨c :: cs, here⟩) (p : Char → Bool) : k.nextWhile p =
    if p c then ((k.past [c]).nextWhile p).map fun run => (c :: run.1, run.2) else .ok ([], k) := by
  have hnext := next_of_cons h
  rw [nextWhile]
  split
  · next h' => cases hnext.symm.trans h'
  · next h' => cases hnext.symm.trans h'
  · next h' =>
    cases hnext.symm.trans h'
    rfl

theorem nextWhile_of_chars (h : k.chars = .ok l) (p : Char → Bool) :
    k.nextWhile p = .ok (l.rest.takeWhile p, k.past (l.rest.takeWhile p)) := by
  obtain ⟨rest, here⟩ := l
  induction rest generalizing k here with
  | nil => exact nextWhile_of_nil h p
  | cons c cs ih =>
    have hpast : (k.past [c]).chars = .ok ⟨cs, here.after c⟩ := chars_past h
    have hrun : k.past (c :: cs.takeWhile p) = (k.past [c]).past (cs.takeWhile p) := past_append k [c] _
    rw [nextWhile_of_cons h, ih _ hpast]
    by_cases hc : p c = true
    · rw [if_pos hc, List.takeWhile_cons_of_pos hc, hrun]
      rfl
    · rw [if_neg hc, List.takeWhile_cons_of_neg hc]
      rfl

/-- A run begins with the next character, if that satisfies the condition. Else nothing changes. -/
theorem run?_eq_nextWhile (p : Char → Bool) (k : ByteCursor) : k.run? p = do
    let next? ← k.peek
    if next?.any p then (fun run => (some (String.ofList run.1), run.2)) <$> k.nextWhile p
    else return (none, k) := by
  cases hunread : k.unread with
  | error e =>
    rw [run?, peek, hunread]
    rfl
  | ok s =>
    have hchars : k.chars = .ok ⟨s.toList, k.location⟩ := by rw [chars, hunread]; rfl
    rw [run?_of_chars hchars, peek_of_chars hchars, nextWhile_of_chars hchars, Cursor.run?_fst]
    cases s.toList with
    | nil => rfl
    | cons c cs =>
      by_cases hc : p c = true
      · simp [Cursor.peek, List.takeWhile_cons_of_pos hc, hc, bind, Except.bind, Functor.map, Except.map]
      · simp [Cursor.peek, List.takeWhile_cons_of_neg hc, hc, bind, Except.bind, pure, Except.pure,
          past_nil]

/-! ### Sequences of moves -/

/-- The cursor afterwards, unless it is found misplaced. -/
def move (k : ByteCursor) : Move → Except Misplaced ByteCursor
  | .next => (·.2) <$> k.next
  | .peek => (fun _ => k) <$> k.peek
  | .trimLeft => k.trimLeft
  | .skipLine => k.skipLine
  | .run p => (·.2) <$> k.run? p

def moves (k : ByteCursor) (ms : List Move) : Except Misplaced ByteCursor := ms.foldlM move k

/-- A cursor stands in a text behind these characters. -/
structure Stands (text : String) (passed : List Char) (k : ByteCursor) : Prop where
  text_eq : k.text = text
  position : k.position = (String.ofList passed).utf8ByteSize
  boundary : (String.Pos.Raw.mk k.position).IsValid text
  unread : ∃ rest, k.unread = .ok rest ∧ text = String.ofList passed ++ rest
  line : k.location.line = 1 + passed.count '\n'
  column : k.location.column = 1 + (passed.reverse.takeWhile (· ≠ '\n')).length

theorem chars_ofText (text : String) : (ofText text).chars = .ok (.ofText text) := by
  have hunread : (ofText text).unread = .ok text := unread_eq_ok_iff.2 ⟨"", by simp [ofText], rfl⟩
  rw [chars, hunread]
  rfl

theorem past_of_run (h : k.chars = .ok l) (p : Char → Bool) :
    (k.past (l.rest.takeWhile p)).chars = .ok (l.takeWhile p).2 := by
  apply chars_past
  rw [List.takeWhile_append_dropWhile]
  exact h

/-- A cursor over bytes goes through the moves of a cursor over characters. -/
theorem move_of_chars (h : k.chars = .ok l) (m : Move) :
    ∃ after, k.move m = .ok after ∧ after.text = k.text ∧ after.chars = .ok (l.move m) := by
  cases m with
  | next =>
    obtain ⟨_ | ⟨c, cs⟩, here⟩ := l
    · exact ⟨k, by rw [move, next_of_nil h]; rfl, rfl, h⟩
    · exact ⟨k.past [c], by rw [move, next_of_cons h]; rfl, rfl, chars_past h⟩
  | peek => exact ⟨k, by rw [move, peek_of_chars h]; rfl, rfl, h⟩
  | trimLeft =>
    refine ⟨k.past (l.rest.takeWhile isBlank), ?_, rfl, past_of_run h isBlank⟩
    rw [move, trimLeft, run?_of_chars h]
    rfl
  | skipLine =>
    refine ⟨k.past (l.rest.takeWhile (· != '\n')), ?_, rfl, past_of_run h (· != '\n')⟩
    rw [move, skipLine, run?_of_chars h]
    rfl
  | run p =>
    refine ⟨k.past (l.rest.takeWhile p), ?_, rfl, ?_⟩
    · rw [move, run?_of_chars h]
      rfl
    · rw [past_of_run h, Cursor.move, Cursor.run?_snd]

theorem moves_of_chars (h : k.chars = .ok l) (ms : List Move) :
    ∃ after, k.moves ms = .ok after ∧ after.text = k.text ∧ after.chars = .ok (l.moves ms) := by
  induction ms generalizing k l with
  | nil => exact ⟨k, rfl, rfl, h⟩
  | cons m ms ih =>
    obtain ⟨k₁, hmove, htext₁, hchars₁⟩ := move_of_chars h m
    obtain ⟨after, hmoves, htext, hchars⟩ := ih hchars₁
    refine ⟨after, ?_, htext.trans htext₁, hchars⟩
    rw [moves, List.foldlM_cons, hmove]
    exact hmoves

theorem stands_of_movesTo (h : k.chars = .ok l) (hm : (Cursor.ofText k.text).MovesTo l) :
    ∃ passed, k.Stands k.text passed := by
  obtain ⟨passed, hrest, hlocation⟩ := hm
  obtain ⟨read, htext, hposition⟩ := unread_eq_ok_iff.1 (unread_of_chars h)
  have hread : read = String.ofList passed := by
    have hlists := (congrArg String.toList htext).symm.trans hrest
    rw [String.toList_append, String.toList_ofList] at hlists
    rw [← List.append_cancel_right hlists, String.ofList_toList]
  subst hread
  have hbehind : k.location = Location.behind passed := by
    rw [location_of_chars h, hlocation]
    exact (behind_append [] passed).symm
  refine ⟨passed, rfl, hposition, ?_, ⟨_, unread_of_chars h, htext⟩, ?_, ?_⟩
  · rw [hposition]
    exact String.Pos.Raw.isValid_iff_exists_append.2 ⟨_, _, htext, rfl⟩
  · rw [hbehind, Nat.add_comm]
    rfl
  · rw [hbehind, Nat.add_comm]
    rfl

/-- No move of a cursor fails, and after any moves it stands in its text behind the characters passed, at
the line and column that they make. To take a run of characters is to take one after another as long as
they satisfy the condition; where the next one does not, there is no run and nothing changes. -/
theorem moves_stand :
    (∀ text ms, ∃ k passed, (ofText text).moves ms = .ok k ∧ k.Stands text passed) ∧
    ∀ p (k : ByteCursor), k.run? p = do
      let next? ← k.peek
      if next?.any p then (fun run => (some (String.ofList run.1), run.2)) <$> k.nextWhile p
      else return (none, k) := by
  refine ⟨fun text ms => ?_, run?_eq_nextWhile⟩
  obtain ⟨k, hmoves, rfl, hchars⟩ := moves_of_chars (chars_ofText text) ms
  obtain ⟨passed, hstands⟩ := stands_of_movesTo hchars (Cursor.movesTo_moves _ ms)
  exact ⟨k, passed, hmoves, hstands⟩

end ByteCursor

end WordMachine.Source
