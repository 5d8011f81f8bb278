import WordMachine.Assembly.Listing
import WordMachine.Proofs.Assembly.Rendering
import WordMachine.Proofs.Word

/-!
# Listings of programs

A listing has the instructions of its program, and a label wherever an instruction names the start of
one or the end of all. It is read as it was written, so it assembles to the program.
-/

namespace WordMachine.Assembly

open Instruction (encodeAll)

/-! ### Instructions and their offsets -/

def withOffsets : Nat → List (Instruction Word) → List (Nat × Instruction Word)
  | _, [] => []
  | o, i :: is => (o, i) :: withOffsets (o + i.size) is

def starts (o : Nat) (is : List (Instruction Word)) : List Nat := (withOffsets o is).map (·.1)

/-- The offsets that instructions name. -/
def targets (is : List (Instruction Word)) : List Nat :=
  is.filterMap fun i => i.operands.target?.map UInt32.toNat

section

variable {o n : Nat} {i : Instruction Word} {is : List (Instruction Word)}

theorem starts_cons : starts o (i :: is) = o :: starts (o + i.size) is := rfl

theorem filterMap_withOffsets {α : Type} (f : Instruction Word → Option α) (o : Nat)
    (is : List (Instruction Word)) : (withOffsets o is).filterMap (fun p => f p.2) = is.filterMap f := by
  induction is generalizing o with
  | nil => rfl
  | cons i is ih => rw [withOffsets, List.filterMap_cons, List.filterMap_cons, ih]

theorem le_of_mem_starts (h : n ∈ starts o is) : o ≤ n := by
  induction is generalizing o with
  | nil => cases h
  | cons i is ih =>
    rw [starts_cons, List.mem_cons] at h
    obtain rfl | h := h
    · exact Nat.le_refl _
    · exact Nat.le_of_add_right_le (ih h)

theorem lt_of_mem_starts (h : n ∈ starts o is) : n < o + (encodeAll is).length := by
  induction is generalizing o with
  | nil => cases h
  | cons i is ih =>
    have hpos : 0 < i.size := i.opcode.size_pos
    rw [starts_cons, List.mem_cons] at h
    rw [Instruction.length_encodeAll_cons]
    obtain rfl | h := h
    · omega
    · have hlt := ih h
      omega

theorem nodup_starts (o : Nat) (is : List (Instruction Word)) : (starts o is).Nodup := by
  induction is generalizing o with
  | nil => exact List.nodup_nil
  | cons i is ih =>
    have hpos : 0 < i.size := i.opcode.size_pos
    rw [starts_cons]
    refine List.nodup_cons.2 ⟨fun h => ?_, ih _⟩
    have hle := le_of_mem_starts h
    omega

/-- An instruction that follows others has its bytes at its offset, and the next one begins behind it. -/
theorem withOffsets_eq_append {before after : List (Nat × Instruction Word)}
    (h : withOffsets o is = before ++ (n, i) :: after) :
    o ≤ n ∧ i.encode <+: (encodeAll is).drop (n - o) ∧
      (after = [] → n + i.size = o + (encodeAll is).length) ∧ ∀ q ∈ after.head?, q.1 = n + i.size := by
  induction is generalizing o before with
  | nil => exact absurd h.symm (by simp [withOffsets])
  | cons j is ih =>
    rw [withOffsets] at h
    rw [Instruction.encodeAll_cons]
    cases before with
    | nil =>
      cases h
      refine ⟨Nat.le_refl _, ?_, fun hnil => ?_, fun q hq => ?_⟩
      · rw [Nat.sub_self, List.drop_zero]
        exact List.prefix_append _ _
      · cases is with
        | nil => rw [Instruction.encodeAll_nil, List.append_nil, Instruction.length_encode]
        | cons k is => cases hnil
      · cases is with
        | nil => cases hq
        | cons k is =>
          cases hq
          rfl
    | cons p before =>
      rcases List.cons.inj h with ⟨-, ht⟩
      rcases ih ht with ⟨hle, hcode, hend, hnext⟩
      have hdrop : (j.encode ++ encodeAll is).drop (n - o) = (encodeAll is).drop (n - (o + j.size)) := by
        have hsub : n - o = j.encode.length + (n - (o + j.size)) := by
          rw [Instruction.length_encode]
          omega
        rw [hsub, ← List.drop_drop, List.drop_left]
      refine ⟨by omega, by rwa [hdrop], fun hnil => ?_, hnext⟩
      rw [hend hnil, List.length_append, Instruction.length_encode, Nat.add_assoc]

theorem lt_of_mem_targets (h : n ∈ targets is) : n < 4294967296 := by
  obtain ⟨i, _, hi⟩ := List.mem_filterMap.1 h
  obtain ⟨t, _, rfl⟩ := Option.map_eq_some_iff.1 hi
  exact t.toNat_lt

end

/-! ### Disassembling -/

def listingError (o : Nat) : DecodeError → ListingError
  | .invalidOpcode _ => .invalidOpcode o
  | .truncated => .unexpectedEnd o

theorem instructionsFrom_encode_append (o : Nat) (i : Instruction Word) (rest : List UInt8) :
    instructionsFrom o (i.encode ++ rest) =
      (instructionsFrom (o + i.size) rest).map ((o, i) :: ·) := by
  have hd := Instruction.decode_encode_append i rest
  have hdrop : (i.encode ++ rest).drop i.size = rest := by
    rw [← Instruction.length_encode, List.drop_left]
  have hcons : i.encode ++ rest = i.opcode.code :: (i.operands.encode ++ rest) := rfl
  rw [hcons] at hd hdrop ⊢
  rw [instructionsFrom, hd]
  dsimp only
  rw [hdrop]

theorem instructionsFrom_encodeAll_append (o : Nat) (is : List (Instruction Word))
    (rest : List UInt8) :
    instructionsFrom o (encodeAll is ++ rest) =
      (instructionsFrom (o + (encodeAll is).length) rest).map (withOffsets o is ++ ·) := by
  induction is generalizing o with
  | nil => cases h : instructionsFrom o rest <;> simp [h, withOffsets, Except.map]
  | cons i is ih =>
    rw [Instruction.encodeAll_cons, List.append_assoc, instructionsFrom_encode_append, ih,
      List.length_append, Instruction.length_encode, Nat.add_assoc]
    cases instructionsFrom (o + (i.size + (encodeAll is).length)) rest <;> rfl

theorem instructionsFrom_of_decode {o : Nat} {rest : List UInt8} {e : DecodeError}
    (hr : rest ≠ []) (h : Instruction.decode rest = .error e) :
    instructionsFrom o rest = .error (listingError o e) := by
  cases rest with
  | nil => exact absurd rfl hr
  | cons b rest =>
    rw [instructionsFrom, h]
    cases e <;> rfl

def listing (is : List (Instruction Word)) : List Line :=
  listingLines (encodeAll is).length (withOffsets 0 is)

theorem instructions_encodeAll (is : List (Instruction Word)) :
    instructions (encodeAll is) = .ok (withOffsets 0 is) := by
  have h := instructionsFrom_encodeAll_append 0 is []
  have hnil : instructionsFrom (0 + (encodeAll is).length) [] = .ok [] := by rw [instructionsFrom]
  rw [List.append_nil, hnil, Except.map, List.append_nil] at h
  exact h

theorem disassemble_encodeAll (is : List (Instruction Word)) :
    disassemble (encodeAll is) = .ok (render (listing is)) := by
  rw [disassemble, instructions_encodeAll]
  rfl

/-- Bytes are listed if they are instructions, and else refused after the last that can be read. -/
theorem disassemble_cases (b : List UInt8) :
    (∃ is, encodeAll is = b ∧ disassemble b = .ok (render (listing is))) ∨
    ∃ is rest e, b = encodeAll is ++ rest ∧ rest ≠ [] ∧ Instruction.decode rest = .error e ∧
      disassemble b = .error (listingError (encodeAll is).length e) := by
  obtain ⟨is, rest, e, rfl, he⟩ := Instruction.exists_encodeAll_append b
  cases rest with
  | nil =>
    rw [List.append_nil]
    exact .inl ⟨is, rfl, disassemble_encodeAll is⟩
  | cons c rest =>
    refine .inr ⟨is, c :: rest, e, rfl, List.cons_ne_nil _ _, he, ?_⟩
    rw [disassemble, instructions, instructionsFrom_encodeAll_append,
      instructionsFrom_of_decode (List.cons_ne_nil _ _) he, Nat.zero_add]
    rfl

theorem disassemble_eq_ok_iff {b : List UInt8} {t : String} :
    disassemble b = .ok t ↔ ∃ is, encodeAll is = b ∧ render (listing is) = t := by
  constructor
  · intro h
    obtain ⟨is, rfl, ht⟩ | ⟨_, _, _, _, _, _, ht⟩ := disassemble_cases b
    · rw [ht] at h
      exact ⟨is, rfl, Except.ok.inj h⟩
    · rw [ht] at h
      cases h
  · rintro ⟨is, rfl, rfl⟩
    exact disassemble_encodeAll is

/-! ### Labels of a listing -/

theorem offsetLabel_inj {m n : Nat} : offsetLabel m = offsetLabel n ↔ m = n := by
  refine ⟨fun h => ?_, congrArg offsetLabel⟩
  have hr : m.repr = n.repr := by simpa [offsetLabel] using h
  have hn := Numeral.natural?_repr m
  rw [hr, Numeral.natural?_repr] at hn
  exact (Option.some.inj hn).symm

theorem offsetLabel_ne_endLabel (n : Nat) : offsetLabel n ≠ endLabel := by
  intro h
  have hc := congrArg String.toList h
  simp [offsetLabel, endLabel] at hc

def entry (starts targets : List Nat) (size : Nat) (p : Nat × Instruction Word) : List Line :=
  (if p.1 ∈ targets then [.label (offsetLabel p.1)] else []) ++
    [.instruction (listed starts size p.2)]

def entries (starts targets : List Nat) (size o : Nat) (is : List (Instruction Word)) : List Line :=
  (withOffsets o is).flatMap (entry starts targets size)

def ending (targets : List Nat) (size : Nat) : List Line :=
  if size ∈ targets then [.label endLabel] else []

theorem listing_eq (is : List (Instruction Word)) :
    listing is = entries (starts 0 is) (targets is) (encodeAll is).length 0 is ++
      ending (targets is) (encodeAll is).length := by
  have ht := filterMap_withOffsets (fun i => i.operands.target?.map UInt32.toNat) 0 is
  rw [listing, listingLines, ht, ending]
  by_cases h : (encodeAll is).length ∈ targets is
  · rw [if_pos h]
    exact if_pos h
  · rw [if_neg h, List.append_nil]
    exact if_neg h

section

variable {ss ts : List Nat} {size o k : Nat} {p : Nat × Instruction Word} {i : Instruction Word}
  {is : List (Instruction Word)} {name : String}

theorem entries_cons : entries ss ts size o (i :: is) =
    entry ss ts size (o, i) ++ entries ss ts size (o + i.size) is :=
  List.flatMap_cons

theorem extent_entry : extent (entry ss ts size p) = p.2.size := by
  rw [entry, extent_append]
  split <;> exact Nat.zero_add _

theorem extent_entries : extent (entries ss ts size o is) = (encodeAll is).length := by
  induction is generalizing o with
  | nil => rfl
  | cons i is ih => rw [entries_cons, extent_append, extent_entry, ih, Instruction.length_encodeAll_cons]

theorem declaredAt_entry : DeclaredAt (entry ss ts size p) name k ↔
    p.1 ∈ ts ∧ name = offsetLabel p.1 ∧ k = 0 := by
  rw [entry]
  by_cases h : p.1 ∈ ts
  · simp [h, declaredAt_cons, not_declaredAt_nil, eq_comm]
  · simp [h, declaredAt_cons, not_declaredAt_nil]

theorem declaredAt_entries : DeclaredAt (entries ss ts size o is) name k ↔
    o + k ∈ starts o is ∧ o + k ∈ ts ∧ name = offsetLabel (o + k) := by
  induction is generalizing o k with
  | nil => simp [entries, withOffsets, starts, not_declaredAt_nil]
  | cons i is ih =>
    rw [entries_cons, declaredAt_append, declaredAt_entry, extent_entry, starts_cons, List.mem_cons]
    constructor
    · rintro (⟨ht, hn, rfl⟩ | ⟨k, hd, rfl⟩)
      · exact ⟨.inl rfl, ht, hn⟩
      · obtain ⟨hs, ht, hn⟩ := ih.1 hd
        rw [Nat.add_assoc] at hs ht hn
        exact ⟨.inr hs, ht, hn⟩
    · rintro ⟨h0 | hs, ht, hn⟩
      · obtain rfl : k = 0 := by omega
        exact .inl ⟨ht, hn, rfl⟩
      · have hle := le_of_mem_starts hs
        obtain ⟨k, rfl⟩ : ∃ k', k = i.size + k' := ⟨k - i.size, by omega⟩
        rw [← Nat.add_assoc] at hs ht hn
        exact .inr ⟨k, ih.2 ⟨hs, ht, hn⟩, rfl⟩

theorem declarations_entries :
    declarations (entries ss ts size o is) = ((starts o is).filter (· ∈ ts)).map offsetLabel := by
  induction is generalizing o with
  | nil => rfl
  | cons i is ih =>
    rw [entries_cons, declarations_append, ih, starts_cons, entry]
    by_cases h : o ∈ ts
    · rw [List.filter_cons_of_pos (by simpa using h), if_pos h]
      rfl
    · rw [List.filter_cons_of_neg (by simpa using h), if_neg h]
      rfl

/-- A listing declares a label for every start and the end that are targets, at that offset. -/
theorem declaredAt_listing : DeclaredAt (listing is) name k ↔
    k ∈ targets is ∧ (k ∈ starts 0 is ∧ name = offsetLabel k ∨
      k = (encodeAll is).length ∧ name = endLabel) := by
  rw [listing_eq, declaredAt_append, declaredAt_entries, extent_entries, Nat.zero_add]
  have hend : ∀ k', DeclaredAt (ending (targets is) (encodeAll is).length) name k' ↔
      (encodeAll is).length ∈ targets is ∧ name = endLabel ∧ k' = 0 := by
    intro k'
    rw [ending]
    by_cases h : (encodeAll is).length ∈ targets is
    · simp [h, declaredAt_cons, not_declaredAt_nil, eq_comm]
    · simp [h, not_declaredAt_nil]
  constructor
  · rintro (⟨hs, ht, hn⟩ | ⟨_, hd, rfl⟩)
    · exact ⟨ht, .inl ⟨hs, hn⟩⟩
    · obtain ⟨ht, hn, rfl⟩ := (hend _).1 hd
      exact ⟨ht, .inr ⟨rfl, hn⟩⟩
  · rintro ⟨ht, ⟨hs, hn⟩ | ⟨rfl, hn⟩⟩
    · exact .inl ⟨hs, ht, hn⟩
    · exact .inr ⟨0, (hend 0).2 ⟨ht, hn, rfl⟩, rfl⟩

theorem nodup_declarations_listing (is : List (Instruction Word)) :
    (declarations (listing is)).Nodup := by
  rw [listing_eq, declarations_append, declarations_entries]
  have hmap : (((starts 0 is).filter (· ∈ targets is)).map offsetLabel).Nodup :=
    List.Pairwise.map offsetLabel (fun _ _ hne he => hne (offsetLabel_inj.1 he))
      ((nodup_starts 0 is).filter _)
  refine List.nodup_append.2 ⟨hmap, ?_, ?_⟩
  · rw [ending]
    split <;> simp [declarations, Line.declared?]
  · intro a ha b hb
    obtain ⟨n, _, rfl⟩ := List.mem_map.1 ha
    have he : b = endLabel := by
      rw [ending] at hb
      split at hb <;> simp_all [declarations, Line.declared?]
    rw [he]
    exact offsetLabel_ne_endLabel n

theorem valid_listing (is : List (Instruction Word)) : Valid (listing is) := by
  refine valid_iff.2 fun name o hd => ?_
  obtain ⟨ht, hn⟩ := declaredAt_listing.1 hd
  refine ⟨lt_of_mem_targets ht, fun o' hd' => ?_⟩
  obtain ⟨_, hn'⟩ := declaredAt_listing.1 hd'
  obtain ⟨_, rfl⟩ | ⟨rfl, rfl⟩ := hn
  · obtain ⟨_, he⟩ | ⟨_, he⟩ := hn'
    · exact (offsetLabel_inj.1 he).symm
    · exact absurd he (offsetLabel_ne_endLabel o)
  · obtain ⟨_, he⟩ | ⟨rfl, _⟩ := hn'
    · exact absurd he.symm (offsetLabel_ne_endLabel o')
    · rfl

/-! ### Targets -/

theorem reference?_listed (ss : List Nat) (size : Nat) (i : Instruction Word) :
    (Line.instruction (listed ss size i)).reference? =
      i.operands.target?.bind fun t => (targetValue ss size t).label? := by
  have h : ∀ {s : Shape} (x : Operands Word s), (listedOperands ss size x).value?.bind Value.label? =
      x.target?.bind fun t => (targetValue ss size t).label? := by
    intro s x
    cases x <;> rfl
  exact h i.operands

theorem label?_targetValue {t : Word} : (targetValue ss size t).label? = some name ↔
    t.toNat ∈ ss ∧ name = offsetLabel t.toNat ∨
      t.toNat ∉ ss ∧ t.toNat = size ∧ name = endLabel := by
  rw [targetValue]
  by_cases hs : t.toNat ∈ ss
  · rw [if_pos hs]
    simp [hs, Value.label?, eq_comm]
  · rw [if_neg hs]
    by_cases he : t.toNat = size
    · subst he
      rw [if_pos rfl]
      simp [hs, Value.label?, eq_comm]
    · rw [if_neg he]
      simp [hs, he, Value.label?]

theorem references_entry (ss ts : List Nat) (size : Nat) (p : Nat × Instruction Word) :
    references (entry ss ts size p) =
      (Line.instruction (listed ss size p.2)).reference?.toList := by
  have hone : ∀ l : Line, references [l] = l.reference?.toList := by
    intro l
    cases h : l.reference? <;> simp [references, h]
  rw [entry, references_append, hone]
  split <;> exact List.nil_append _

theorem mem_references_entries : name ∈ references (entries ss ts size o is) ↔
    ∃ i ∈ is, ∃ t, i.operands.target? = some t ∧ (targetValue ss size t).label? = some name := by
  induction is generalizing o with
  | nil => simp [entries, withOffsets, references]
  | cons i is ih =>
    rw [entries_cons, references_append, List.mem_append, ih, references_entry, Option.mem_toList,
      reference?_listed, Option.bind_eq_some_iff]
    simp only [List.mem_cons, exists_eq_or_imp]

theorem mem_targets_iff {n : Nat} :
    n ∈ targets is ↔ ∃ i ∈ is, ∃ t, i.operands.target? = some t ∧ t.toNat = n := by
  simp [targets, List.mem_filterMap, Option.map_eq_some_iff]

/-- The labels that a listing declares are those in its instructions. -/
theorem mem_references_listing_iff :
    name ∈ references (listing is) ↔ name ∈ declarations (listing is) := by
  have hend : references (ending (targets is) (encodeAll is).length) = [] := by
    rw [ending]
    split <;> rfl
  have hrefs : name ∈ references (listing is) ↔ ∃ i ∈ is, ∃ t, i.operands.target? = some t ∧
      (targetValue (starts 0 is) (encodeAll is).length t).label? = some name := by
    rw [listing_eq, references_append, hend, List.append_nil, mem_references_entries]
  rw [hrefs, mem_declarations_iff_declaredAt]
  constructor
  · rintro ⟨i, hi, t, ht, hl⟩
    have hmem := mem_targets_iff.2 ⟨i, hi, t, ht, rfl⟩
    obtain ⟨hs, hn⟩ | ⟨_, he, hn⟩ := label?_targetValue.1 hl
    · exact ⟨_, declaredAt_listing.2 ⟨hmem, .inl ⟨hs, hn⟩⟩⟩
    · exact ⟨_, declaredAt_listing.2 ⟨hmem, .inr ⟨he, hn⟩⟩⟩
  · rintro ⟨k, hd⟩
    obtain ⟨hmem, hk⟩ := declaredAt_listing.1 hd
    obtain ⟨i, hi, t, ht, rfl⟩ := mem_targets_iff.1 hmem
    refine ⟨i, hi, t, ht, label?_targetValue.2 ?_⟩
    obtain ⟨hs, hn⟩ | ⟨he, hn⟩ := hk
    · exact .inl ⟨hs, hn⟩
    · refine .inr ⟨fun hs => ?_, he, hn⟩
      have hlt := lt_of_mem_starts hs
      omega

/-! ### Reading a listing -/

theorem stem_offsetLabel (n : Nat) : Stem (offsetLabel n) :=
  Stem.append (by decide) fun _ => clean_repr

theorem stem_endLabel : Stem endLabel := by decide

theorem targetValue_readable (ss : List Nat) (size : Nat) (t : Word) :
    (targetValue ss size t).Clean ∧ (targetValue ss size t).Fits := by
  rw [targetValue]
  split
  · exact ⟨stem_offsetLabel _, trivial⟩
  · split
    · exact ⟨stem_endLabel, trivial⟩
    · have ht := t.toNat_lt
      exact ⟨Int.natCast_nonneg _, by simp only [Value.Fits]; omega⟩

theorem listedOperands_readable {s : Shape} {x : Operands Word s} {v : Value}
    (h : (listedOperands ss size x).value? = some v) : v.Clean ∧ v.Fits := by
  cases x with
  | none | reg | regReg => cases h
  | regVal a w =>
    cases h
    have hw := w.toNat_lt
    exact ⟨Int.natCast_nonneg _, by simp only [Value.Fits]; omega⟩
  | label t =>
    cases h
    exact targetValue_readable ss size t

theorem listing_readable {l : Line} (h : l ∈ listing is) : l.Clean ∧ l.Fits := by
  rw [listing_eq, List.mem_append, entries, List.mem_flatMap, ending] at h
  obtain ⟨p, _, hp⟩ | he := h
  · rw [entry, List.mem_append, List.mem_singleton] at hp
    obtain hp | rfl := hp
    · split at hp
      · cases List.mem_singleton.1 hp
        exact ⟨stem_offsetLabel _, trivial⟩
      · cases hp
    · exact ⟨fun v hv => (listedOperands_readable hv).1, fun v hv => (listedOperands_readable hv).2⟩
  · split at he
    · cases List.mem_singleton.1 he
      exact ⟨stem_endLabel, trivial⟩
    · cases he

/-! ### Assembling a listing -/

theorem word_targetValue {t : Word} (h : t.toNat ∈ targets is) :
    Value.word (listing is) (targetValue (starts 0 is) (encodeAll is).length t) = t := by
  have hoff : ∀ {name}, DeclaredAt (listing is) name t.toNat →
      Value.word (listing is) (.label name) = t := by
    intro name hd
    rw [Value.word, (valid_listing is).offsetOf_eq hd]
    exact UInt32.ofNat_toNat
  rw [targetValue]
  split
  · next hs => exact hoff (declaredAt_listing.2 ⟨h, .inl ⟨hs, rfl⟩⟩)
  · split
    · next he => exact hoff (declaredAt_listing.2 ⟨h, .inr ⟨he, rfl⟩⟩)
    · exact Word.ofInt_toNat t

theorem map_listed (h : i ∈ is) :
    (listed (starts 0 is) (encodeAll is).length i).map (Value.word (listing is)) = i := by
  have hx : ∀ {s : Shape} (x : Operands Word s), (∀ t, x.target? = some t → t.toNat ∈ targets is) →
      (listedOperands (starts 0 is) (encodeAll is).length x).map (Value.word (listing is)) = x := by
    intro s x ht
    cases x with
    | none | reg | regReg => rfl
    | regVal a v => exact congrArg (Operands.regVal a) (Word.ofInt_toNat v)
    | label t => exact congrArg Operands.label (word_targetValue (ht t rfl))
  have hi := hx i.operands fun t ht => mem_targets_iff.2 ⟨i, h, t, ht, rfl⟩
  rw [Instruction.map, listed]
  dsimp only
  rw [hi]

theorem instructionLines_entries :
    instructionLines (entries ss ts size o is) = is.map (listed ss size) := by
  induction is generalizing o with
  | nil => rfl
  | cons i is ih =>
    have he : instructionLines (entry ss ts size (o, i)) = [listed ss size i] := by
      rw [entry]
      split <;> rfl
    rw [entries_cons, instructionLines, List.filterMap_append, List.map_cons, ← ih]
    exact congrArg (· ++ _) he

/-- The instructions of a listing are those of its program, with offsets in place of labels. -/
theorem resolved_listing (is : List (Instruction Word)) : resolved (listing is) = is := by
  have hlines : instructionLines (listing is) =
      is.map (listed (starts 0 is) (encodeAll is).length) := by
    rw [listing_eq, instructionLines, List.filterMap_append]
    refine (congrArg (_ ++ ·) ?_).trans ((List.append_nil _).trans instructionLines_entries)
    rw [ending]
    split <;> rfl
  rw [resolved, hlines, List.map_map]
  exact (List.map_congr_left fun i hi => map_listed hi).trans (List.map_id is)

theorem image_listing (is : List (Instruction Word)) : image (listing is) = encodeAll is := by
  rw [image, resolved_listing]

theorem reads_listing (is : List (Instruction Word)) :
    Reads (lines (render (listing is))) (listing is ++ [.blank]) :=
  reads_render (fun _ h => (listing_readable h).1) fun _ h => (listing_readable h).2

theorem assemble_listing (is : List (Instruction Word)) :
    assemble (render (listing is)) = .ok (encodeAll is) := by
  rw [← image_listing is]
  exact assemble_render (fun _ h => (listing_readable h).1) (fun _ h => (listing_readable h).2)
    (valid_listing is) fun _ => mem_references_listing_iff.1

end

end WordMachine.Assembly
