import WordMachine.Proofs.Assembly.Rendering
import WordMachine.Proofs.Machine.Placement

/-!
# Assembled lines are placed

If clean lines are written and assembled again, then every line has its place in the program, for the
table at the end of the last pass.
-/

namespace WordMachine.Assembly

/-! ### The last pass -/

/-- The table has all labels of another at their offsets. -/
def Labels.Extends (t u : Labels) : Prop := ∀ name v, t.get? name = some v → u.get? name = some v

theorem resolve_mono {t u : Labels} (h : t.Extends u) {v : Value} {w : Word}
    (hv : Value.resolve true t v = .ok w) : Value.resolve true u v = .ok w := by
  cases v with
  | number n => exact hv
  | label name =>
    cases hg : t.get? name with
    | none => simp [Value.resolve, hg] at hv
    | some o =>
      simp only [Value.resolve, hg] at hv
      simp only [Value.resolve, h name o hg]
      exact hv

theorem traverse_mono {t u : Labels} (h : t.Extends u) {i : Instruction Value} {j : Instruction Word}
    (hj : i.traverse (Value.resolve true t) = .ok j) : i.traverse (Value.resolve true u) = .ok j := by
  have ho : ∀ {s : Shape} {x : Operands Value s} {y : Operands Word s},
      x.traverse (Value.resolve true t) = .ok y → x.traverse (Value.resolve true u) = .ok y := by
    intro s x y hy
    cases x with
    | none | reg | regReg => exact hy
    | regVal a v | label v =>
      cases hv : Value.resolve true t v with
      | error e => simp [Operands.traverse, hv, Except.map] at hy
      | ok w =>
        simp only [Operands.traverse, hv] at hy
        simp only [Operands.traverse, resolve_mono h hv]
        exact hy
  cases hx : i.operands.traverse (Value.resolve true t) with
  | error e => simp [Instruction.traverse, hx, Except.map] at hj
  | ok y =>
    simp only [Instruction.traverse, hx] at hj
    simp only [Instruction.traverse, ho hx]
    exact hj

theorem assemble_extends {line : Line} {o : Nat} {t u : Labels} {bytes : List UInt8}
    (h : Line.assemble true o t line = .ok (bytes, u)) : t.Extends u := by
  cases line with
  | blank =>
    cases h
    exact fun _ _ hv => hv
  | label name =>
    rw [Line.assemble] at h
    split at h
    · cases hi : t.insert name (UInt32.ofNat o) with
      | error e =>
        rw [hi] at h
        cases h
      | ok t' =>
        rw [hi] at h
        cases h
        intro other v hv
        rw [Labels.get?_of_insert hi]
        by_cases he : other = name
        · subst he
          rw [if_pos rfl]
          by_cases hold : v = UInt32.ofNat o
          · rw [hold]
          · have herr := Labels.insert_eq_error_iff.2 ⟨hv, hold⟩
            rw [hi] at herr
            cases herr
        · rw [if_neg he, hv]
    · cases h
  | instruction i =>
    cases hj : i.traverse (Value.resolve true t) with
    | error e => simp [Line.assemble, hj, Except.map] at h
    | ok j =>
      simp only [Line.assemble, hj, Except.map, Except.ok.injEq, Prod.mk.injEq] at h
      obtain ⟨_, rfl⟩ := h
      exact fun _ _ hv => hv

theorem placed_cons_of_assemble {line : Line} {o : Nat} {t u T : Labels} {bytes program : List UInt8}
    {code : List Line} (h : Line.assemble true o t line = .ok (bytes, u)) (hT : u.Extends T)
    (hp : bytes <+: program.drop o) (hcode : Placed T program (o + bytes.length) code) :
    bytes.length = line.size ∧ Placed T program o (line :: code) := by
  cases line with
  | blank =>
    cases h
    exact ⟨rfl, hcode⟩
  | label name =>
    rw [Line.assemble] at h
    split at h
    · cases hi : t.insert name (UInt32.ofNat o) with
      | error e =>
        rw [hi] at h
        cases h
      | ok t' =>
        rw [hi] at h
        cases h
        exact ⟨rfl, hT name _ (by rw [Labels.get?_of_insert hi, if_pos rfl]), hcode⟩
    · cases h
  | instruction i =>
    cases hj : i.traverse (Value.resolve true t) with
    | error e => simp [Line.assemble, hj, Except.map] at h
    | ok j =>
      simp only [Line.assemble, hj, Except.map, Except.ok.injEq, Prod.mk.injEq] at h
      obtain ⟨rfl, rfl⟩ := h
      have hs : j.encode.length = i.size := by
        rw [Instruction.length_encode, Instruction.size_of_traverse hj]
      rw [hs] at hcode
      exact ⟨hs, ⟨j, traverse_mono hT hj, hp⟩, hcode⟩

theorem placed_of_passFrom {code : List Line} (hc : ∀ line ∈ code, line.Clean) {number o : Nat}
    {t T : Labels} {bytes program : List UInt8}
    (h : passFrom true number o t (code.map (fun line => line.text.toList) ++ [[]]) = (.ok bytes, T))
    (hp : program.drop o = bytes) (ho : o ≤ program.length) :
    t.Extends T ∧ Placed T program o code ∧ bytes.length = extent code := by
  induction code generalizing number o t bytes with
  | nil =>
    cases h
    exact ⟨fun _ _ hv => hv, ho, rfl⟩
  | cons line code ih =>
    obtain ⟨hl, hrest⟩ := List.forall_mem_cons.1 hc
    rw [List.map_cons, List.cons_append, passFrom] at h
    cases hr : Line.read line.text.toList with
    | error e =>
      rw [hr] at h
      cases h
    | ok line' =>
      have he := ((read_text hl).1 hr).1
      subst he
      cases ha : Line.assemble true o t line' with
      | error e =>
        rw [hr] at h
        simp only [bind, Except.bind, ha] at h
        cases h
      | ok p =>
        rcases p with ⟨b, u⟩
        rw [hr] at h
        simp only [bind, Except.bind, ha, Prod.mk.injEq] at h
        obtain ⟨hb, hT⟩ := h
        cases hafter : passFrom true (number + 1) (o + b.length) u
            (code.map (fun line => line.text.toList) ++ [[]]) with
        | mk result after =>
          rw [hafter] at hb hT
          cases result with
          | error e => cases hb
          | ok rest =>
            cases hb
            cases hT
            have hlen : program.length = o + (b.length + rest.length) := by
              have hd := congrArg List.length hp
              rw [List.length_drop, List.length_append] at hd
              omega
            have hdrop : program.drop (o + b.length) = rest := by
              rw [← List.drop_drop, hp, List.drop_left]
            obtain ⟨hu, hplaced, hsize⟩ := ih hrest hafter hdrop (by omega)
            obtain ⟨hbs, hpl⟩ := placed_cons_of_assemble ha hu (hp ▸ List.prefix_append b rest) hplaced
            refine ⟨fun name v hv => hu name v (assemble_extends ha name v hv), hpl, ?_⟩
            rw [List.length_append, hbs, hsize, extent_cons]

/-- Clean lines that are written and assembled are placed at the start of the program, which has no
bytes besides theirs. -/
theorem placed_of_assemble {code : List Line} {program : List UInt8}
    (hc : ∀ line ∈ code, line.Clean) (h : assemble (render code) = .ok program) :
    ∃ labels, Placed labels program 0 code ∧ program.length = extent code := by
  rw [assemble] at h
  split at h
  · cases h
  · next labels _ =>
    rw [pass, lines_render hc] at h
    cases hp : passFrom true 1 0 labels (code.map (fun line => line.text.toList) ++ [[]]) with
    | mk result T =>
      rw [hp] at h
      dsimp only at h
      subst h
      obtain ⟨_, hplaced, hlen⟩ := placed_of_passFrom hc hp rfl (Nat.zero_le _)
      exact ⟨T, hplaced, hlen⟩

end WordMachine.Assembly
