import WordMachine.Proofs.Compiler.Heights
import WordMachine.Proofs.Compiler.Integrity
import WordMachine.Proofs.Machine.Levels

/-!
# The course of a function

From its entry on a function leaves its return address and everything beyond its parameters alone,
whatever it executes and calls, and it returns to where it was called. If it has come to the end of the
code of an argument, it has pushed that argument and has been in the code after it ever since, so that
the argument still lies where it was pushed.
-/

namespace WordMachine.Compiler

open Assembly Source Machine

variable {σ : Type} [Host σ] {I : Image} {p : Signature → Prop} {m m' m₁ m₂ m₃ m₄ e : Machine}
  {h h' h₁ h₂ h₃ h₄ c : σ} {b b' : Body} {base base' : Int} {s s' : Shape} {n k o o' : Nat}
  {line : Line} {rest rest' : Code} {i : Instruction Value} {g : Signature} {r : Register}
  {region : Nat → Prop} {E : Machine → Prop}

/-! ### Calls and returns -/

theorem Allowed.locals_le {w : List Content} {k : Option (Register × Fact)} {t : Setting}
    {shapeOf : Nat → List Content} (ha : Allowed t shapeOf ⟨w, k⟩ (Code.push r) s) :
    t.locals ≤ w.length := by
  generalize hline : Code.push r = line at ha
  cases ha with
  | push hl | pushSlot hl => exact hl
  | branch hb => cases hb <;> cases hline
  | quiet hq | keep hq =>
    cases hline
    exact absurd hq.stack (by simp [Instruction.written])
  | _ => cases hline

theorem Allowed.arity_le {t : Setting} {shapeOf : Nat → List Content}
    (ha : Allowed t shapeOf s (Code.call (.function g)) s') : g.arity ≤ s.words.length := by
  rcases ha.of_call rfl rfl with ⟨g', hline, hany, _⟩
  rw [eq_of_call_eq hline]
  exact le_length_of_any hany

theorem Active.returns (hA : Active I p m b base s o (Code.ret :: rest)) (hi : Intact I p m)
    (hw : s.words = []) (hs : m.step h = (m', h', .running)) : Intact I p m' ∧
      m'.memory = m.memory ∧ m'.programOffset = m.programOffset ∧
      m'.get .stack = Word.ofInt (base + 4) ∧
      ∀ v, m.memory.word? base = some v → m'.get .instruction = v := by
  have htop : m.get .stack = Word.ofInt base := by
    rw [hA.stack, hw]
    congr 1
    exact Int.sub_zero _
  rcases s with ⟨w, k⟩
  cases hw
  by_cases hb : m.memory.Holds (m.get .stack) 4
  · rw [step_ret hi.loaded hA.pointer (hA.position.placed hA.sound) hb h] at hs
    cases hs
    refine ⟨hA.ended hi, rfl, rfl, ?_, fun v hv => ?_⟩
    · rw [get_goto, if_neg Register.stack_ne_instruction, get_set, if_pos rfl, top_add_four htop]
    · rw [get_goto, if_pos rfl, htop, Memory.read_of_word? hv]
  · rw [step_ret_fault hi.loaded hA.pointer (hA.position.placed hA.sound) hb h] at hs
    cases hs

/-- The caller goes on after a call, if the call has changed no more than its arguments and what lies
below them. -/
theorem Active.resumed {arity : Nat} (hA : Active I p m b base s o (line :: rest))
    (hat : b.At o' ⟨s.words, none⟩ rest) (hany : ∀ i < arity, s.words[i]? = some .any)
    (hpos : m'.At o') (hstart : m'.programOffset = m.programOffset)
    (hstack : m'.get .stack = m.get .stack)
    (hm : ∀ y, base - 4 * s.words.length + 4 * arity ≤ y → m'.memory.word? y = m.memory.word? y) :
    Active I p m' b base ⟨s.words, none⟩ o' rest where
  sound := hA.sound
  position := hat
  pointer := hpos
  stack := hstack.trans hA.stack
  room := hA.room
  low := hA.low
  stacked := by
    refine hA.stacked.congr fun top z below hw _ => hm _ ?_
    have hle := length_le_of_slot hany hw
    have hlen := congrArg List.length hw
    simp only [List.length_append, List.length_cons] at hlen
    omega
  known r f hf := by cases hf
  suspended := by
    have hle := le_length_of_any hany
    rw [hstart]
    refine hA.suspended.congr fun y hy => hm y ?_
    omega

/-! ### Lines that are done -/

/-- In so many steps a line of the function is done, a call together with what it calls. The level is
kept, and so are all words that the line leaves alone. -/
structure Pass (E : Machine → Prop) (b : Body) (base : Int) (s : Shape) (line : Line) (rest : Code)
    (n : Nat) (m : Machine) (h : σ) (m' : Machine) (h' : σ) (s' : Shape) (rest' : Code) : Prop where
  allowed : Allowed b.setting b.shapeOf s line s'
  leads : b.Leads line rest rest'
  programOffset : m'.programOffset = m.programOffset
  spared : ∀ j y, j ≤ s.words.length →
    (∀ g, line = Code.call (.function g) → j + g.arity ≤ s.words.length) → b.Spares base j y →
    m'.memory.word? y = m.memory.word? y
  level : ∀ {region k e} {c : σ}, (0 < line.size → region (m.get .instruction).toNat) →
    Level E region k e c m h → Level E region (k + n) e c m' h'
  pushed : ∀ r, line = Code.push r → n = 1 ∧ m.step h = (m', h', .running) ∧
    m'.memory.word? (base - 4 * (s.words.length + 1)) = some (m.get r)

theorem Body.Spares.mono {y : Int} (hy : b.Spares base n y) (hn : n ≤ k) : b.Spares base k y := by
  unfold Body.Spares at *
  omega

theorem Active.pass_mark (hA : Active I p m b base s o (line :: rest))
    (hm : ∀ i, line ≠ .instruction i) (h : σ) :
    Pass E b base s line rest 0 m h m h ⟨s.words, none⟩ rest ∧
      Active I p m b base ⟨s.words, none⟩ o rest := by
  rcases hA.position.next with ⟨s₁, ha, hn⟩
  have hat := hn (hm _)
  have hsize : line.size = 0 := by
    cases line with
    | instruction i => exact absurd rfl (hm i)
    | blank | label => rfl
  cases ha.of_mark hm
  rw [hsize] at hat
  refine ⟨⟨ha, .next, rfl, fun _ _ _ _ _ => rfl, fun _ l => l, ?_⟩,
    hA.sound, hat, hA.pointer, hA.stack, hA.room, hA.low, hA.stacked, ?_, hA.suspended⟩
  · intro r hline
    exact absurd hline (hm _)
  · intro r f hf
    cases hf

theorem Active.word_of_push (hA : Active I p m b base s o (Code.push r :: rest)) (hi : Intact I p m)
    (hs : m.step h = (m', h', .running)) :
    m'.memory.word? (base - 4 * (s.words.length + 1)) = some (m.get r) := by
  have hp := hA.position.placed hA.sound
  by_cases hb : m.memory.Holds (m.get .stack - 4) 4
  · rw [step_push hi.loaded hA.pointer hp hb h] at hs
    cases hs
    have h4 := hA.four_le hi hb
    have hle := hA.le_start
    have hsize := hi.loaded.size_eq
    rcases arrives_pushed hA.stack h4 (by omega) (m.get r) (o + 2) with ⟨_, _, hword⟩
    have hy : base - 4 * ((s.words.length : Int) + 1) = base - 4 * s.words.length - 4 := by omega
    rw [hy]
    exact hword
  · rw [step_push_fault hi.loaded hA.pointer hp hb h] at hs
    cases hs

theorem Active.fetches (hA : Active I p m b base s o (.instruction i :: rest)) (hi : Intact I p m) :
    ∃ j, m.Fetches j ∧ j.opcode = i.opcode := by
  rcases exists_fetches hi.loaded hA.pointer (hA.position.placed hA.sound) with ⟨j, hj, hf⟩
  exact ⟨j, hf, Instruction.opcode_of_traverse hj⟩

theorem Active.pass_step (hA : Active I p m b base s o (.instruction i :: rest)) (hi : Intact I p m)
    (hcall : i.opcode ≠ .call) (hret : i.opcode ≠ .ret) (hs : m.step h = (m', h', .running)) :
    ∃ s' o' rest', Pass E b base s (.instruction i) rest 1 m h m' h' s' rest' ∧ Intact I p m' ∧
      Active I p m' b base s' o' rest' := by
  rcases hA.advance hi rfl hcall hret hs with ⟨s', o', rest', ha, hleads, hst⟩
  rcases hA.fetches hi with ⟨j, hf, hj⟩
  refine ⟨s', o', rest', ⟨ha, hleads, programOffset_of_running hs, ?_, ?_, ?_⟩, hst.intact, hst.active⟩
  · intro j y hle _ hy
    exact hst.spared y (hy.mono hle)
  · intro region k e c hr l
    exact .step l (hr i.opcode.size_pos) hf (hj ▸ hcall) (hj ▸ hret) hs
  · intro r hline
    rw [hline] at hA
    exact ⟨rfl, hs, hA.word_of_push hi hs⟩

/-! ### Since the entry of a function -/

/-- A machine c came from e in a steps to the line after `pre`, which pushed a word of it at a height of
d words. In k more steps, in the block after that line alone, it has come to m, where the word still
lies in its place. -/
structure Pushed (E : Machine → Prop) (b : Body) (base : Int) (e : Machine) (g : σ) (n : Nat)
    (m : Machine) (h : σ) (pre : Code) (r : Register) (block : Code) (a k : Nat) (t : Machine) (c : σ)
    (d : Nat) : Prop where
  count : a + 1 + k = n
  before : Level E Anywhere a e g t c
  position : t.At (b.start + extent pre)
  stack : t.get .stack = Word.ofInt (base - 4 * d)
  locals : b.setting.locals ≤ d
  after : ∃ u c', t.step c = (u, c', .running) ∧ Level E (Inside e.programOffset.toNat
    (b.start + extent pre + 2) (b.start + extent pre + 2 + extent block)) k u c' m h
  word : m.memory.word? (base - 4 * (d + 1)) = some (t.get r)

/-- What is known of a machine in the middle of a function, n steps after its entry at e. -/
structure Traced (E : Machine → Prop) (I : Image) (p : Signature → Prop) (b : Body) (base : Int)
    (e : Machine) (g : σ) (n : Nat) (m : Machine) (h : σ) (s : Shape) (o : Nat) (rest : Code) :
    Prop where
  level : Level E Anywhere n e g m h
  intact : Intact I p m
  active : Active I p m b base s o rest
  programOffset : m.programOffset = e.programOffset
  spared : ∀ y, b.Spares base 0 y → m.memory.word? y = e.memory.word? y
  pushed : ∀ pre r x y after j, b.lines = pre ++ Code.push r :: (x ++ (y ++ after)) →
    Climbs 0 none (x ++ y) j → rest = y ++ after → ∃ a k t c d n' q,
      Pushed E b base e g n m h pre r (x ++ y) a k t c d ∧ s.words.length = d + 1 + n' ∧
      Climbs n' q y j ∧ Agrees q s.known

theorem Pushed.pass {pre x y : Code} {a d δ n' n₁ : Nat} {t : Machine}
    {q q₁ : Option (Register × Nat)} {c : σ} {f : σ}
    (P : Pushed E b base e f n m h pre r (x ++ line :: y) a k t c d)
    (hpass : Pass E b base s line rest δ m h m' h' s' rest') (hi : Intact I p m)
    (hA : Active I p m b base s o (line :: rest)) (hstart : m.programOffset = e.programOffset)
    (ho : o = b.start + extent pre + 2 + extent x) (hwords : s.words.length = d + 1 + n')
    (hclimb : Climb n' q line n₁ q₁) :
    Pushed E b base e f (n + δ) m' h' pre r (x ++ line :: y) a (k + δ) t c d where
  count := by rw [← P.count, Nat.add_assoc (a + 1)]
  before := P.before
  position := P.position
  stack := P.stack
  locals := P.locals
  after := by
    rcases P.after with ⟨u, c', hs, l⟩
    refine ⟨u, c', hs, hpass.level (fun hsize => ?_) l⟩
    have hend := (hA.position.placed hA.sound).extent_le
    rw [extent_cons] at hend
    have hin := hi.loaded.inside hA.pointer (e := o + line.size) (by omega) (by omega)
    rw [hstart] at hin
    refine inside_mono (by omega) ?_ _ hin
    rw [extent_append, extent_cons]
    omega
  word := by
    rw [← P.word]
    have hlocals := P.locals
    refine hpass.spared (d + 1) _ (by omega) ?_ (.inr (.inr ⟨by omega, by omega⟩))
    rintro g rfl
    have hle := hclimb.of_call
    omega

/-- The lines of the block before the next one have been done. -/
theorem Traced.carry {f : σ} {pre before x y after : Code} {j δ : Nat}
    (T : Traced E I p b base e f n m h s o (line :: rest))
    (hpass : Pass E b base s line rest δ m h m' h' s' rest')
    (hlines : b.lines = before ++ line :: rest) (hbefore : before = pre ++ Code.push r :: x)
    (hrest : rest = y ++ after) (hclimbs : Climbs 0 none (x ++ line :: y) j) :
    ∃ a k t c d n₁ q₁, Pushed E b base e f (n + δ) m' h' pre r (x ++ line :: y) a k t c d ∧
      s'.words.length = d + 1 + n₁ ∧ Climbs n₁ q₁ y j ∧ Agrees q₁ s'.known := by
  subst hbefore hrest
  have hsplit : b.lines = pre ++ Code.push r :: (x ++ (line :: y ++ after)) := by
    rw [hlines, List.append_assoc]
    rfl
  rcases T.pushed pre r x (line :: y) after j hsplit hclimbs rfl with
    ⟨a, k, t, c, d, n', q, P, hwords, hy, hq⟩
  have ho : o = b.start + extent pre + 2 + extent x := by
    rcases T.active.position.split with ⟨first, hfirst, ho⟩
    have heq := List.append_cancel_right (hlines.symm.trans hfirst)
    rw [ho, ← heq, extent_append, extent_cons]
    show _ + (_ + (2 + _)) = _
    omega
  cases hy with
  | cons hc hcs =>
    rcases hc.words hpass.allowed hq hwords with ⟨hwords', hq'⟩
    exact ⟨a, k + δ, t, c, d, _, _,
      P.pass hpass T.intact T.active T.programOffset ho hwords hc, hwords', hcs, hq'⟩

/-- A jump over the line before the label of a truth value is made in the same code. -/
theorem exists_before_truth {pre before x : Code} {q : Register} {id : Nat}
    (hlines : before ++ line :: Code.xor q q :: Code.label (.truth id) :: rest =
      pre ++ Code.push r :: (x ++ rest)) (ht : jumpTarget? line = some (Label.truth id).text) :
    ∃ cs, x = cs ++ [line, Code.xor q q, Code.label (.truth id)] ∧
      before = pre ++ Code.push r :: cs := by
  have hlabel : (before ++ [line, Code.xor q q]) ++ Code.label (.truth id) :: rest =
      pre ++ Code.push r :: (x ++ rest) := by rw [← hlines, List.append_assoc]; rfl
  rcases append_cons_eq_append_cons hlabel with ⟨_, _, hne⟩ | ⟨cs, rfl, hxor⟩
  · cases hne
  · rw [List.append_cons] at hxor
    rcases concat_eq_append_cons hxor with ⟨_, _, hne⟩ | ⟨cs, rfl, hline⟩
    · cases hne
    · rcases concat_eq_append_cons hline with ⟨_, _, rfl⟩ | ⟨cs, rfl, hbefore⟩
      · cases ht
      · exact ⟨cs, by simp, hbefore⟩

/-- A line that is done takes what is known of the machine before it to what is known after it. -/
theorem Traced.pass {f : σ} {δ : Nat} (T : Traced E I p b base e f n m h s o (line :: rest))
    (hpass : Pass E b base s line rest δ m h m' h' s' rest') (hi : Intact I p m')
    (hA : Active I p m' b base s' o' rest') : Traced E I p b base e f (n + δ) m' h' s' o' rest' where
  level := hpass.level (fun _ => trivial) T.level
  intact := hi
  active := hA
  programOffset := hpass.programOffset.trans T.programOffset
  spared y hy := by
    rw [← T.spared y hy]
    refine hpass.spared 0 y (Nat.zero_le _) ?_ hy
    rintro g rfl
    rw [Nat.zero_add]
    exact hpass.allowed.arity_le
  pushed := by
    rintro pre r x y after j hlines hclimbs rfl
    rcases T.active.position.split with ⟨before, hsplit, ho⟩
    cases hpass.leads with
    | next =>
      rcases append_cons_eq_append_cons (hsplit.symm.trans hlines) with
        ⟨rfl, rfl, rfl⟩ | ⟨cs, rfl, hbefore⟩
      · -- the line is the push itself
        rcases hpass.pushed r rfl with ⟨rfl, hs, hword⟩
        have hallowed := hpass.allowed
        have hwords := (Climb.push (n := 0) (q := none)).words hallowed (agrees_none _) rfl
        refine ⟨n, 0, m, h, s.words.length, 0, none, ⟨rfl, T.level, ?_, T.active.stack,
          hallowed.locals_le, ⟨m', h', hs, .done m' h'⟩, hword⟩, hwords.1, hclimbs, agrees_none _⟩
        rw [← ho]
        exact T.active.pointer
      · rw [List.append_assoc, List.singleton_append] at hclimbs ⊢
        exact T.carry hpass hsplit hbefore rfl hclimbs
    | @jump before' _ l hlabel hnot =>
      rcases append_cons_eq_append_cons (hlabel.symm.trans hlines) with
        ⟨_, _, hne⟩ | ⟨cs, rfl, _⟩
      · cases hne
      · rw [List.append_assoc, List.singleton_append] at hclimbs
        rcases hclimbs.split with ⟨_, _, _, hcs⟩
        cases hcs with
        | cons hc _ =>
          rcases hc.exists_truth with ⟨id, hid⟩
          exact absurd hid (hnot id)
    | @truth q id _ hrest ht =>
      subst hrest
      rcases exists_before_truth (hsplit.symm.trans hlines) ht with ⟨cs, rfl, hbefore⟩
      have hblock : cs ++ [line, Code.xor q q, Code.label (.truth id)] ++ y =
          cs ++ line :: (Code.xor q q :: Code.label (.truth id) :: y) := by simp
      rw [hblock] at hclimbs ⊢
      rcases T.carry hpass hsplit hbefore rfl hclimbs with
        ⟨a, k, t, c, d, n₁, q₁, P, hwords, hcs, _⟩
      cases hcs with
      | cons hxor hcs =>
        cases hcs with
        | cons hlabel hcs =>
          rcases Climb.of_label hlabel with ⟨rfl, rfl⟩
          rw [hxor.of_xor] at hcs
          exact ⟨a, k, t, c, d, n₁, none, P, hwords, hcs, agrees_none _⟩

theorem traced_start (hi : Intact I p m) (hA : Active I p m b base s b.start rest) (h : σ) :
    Traced E I p b base m h 0 m h s b.start rest where
  level := .done m h
  intact := hi
  active := hA
  programOffset := rfl
  spared _ _ := rfl
  pushed := by
    rintro pre r x y after j hlines _ rfl
    rcases hA.position.split with ⟨before, hsplit, ho⟩
    have hbefore : before ++ (y ++ after) = (pre ++ Code.push r :: x) ++ (y ++ after) := by
      rw [← hsplit, hlines, List.append_assoc]
      rfl
    have hlen := congrArg extent (List.append_cancel_right hbefore)
    have hpush : (Code.push r).size = 2 := rfl
    rw [extent_append, extent_cons, hpush] at hlen
    omega

theorem Traced.instruction {f : σ} (T : Traced E I p b base e f n m h s o rest) :
    ∃ i ls s', Traced E I p b base e f n m h s' o (.instruction i :: ls) := by
  induction rest generalizing s with
  | nil => cases T.active.position.last
  | cons line rest ih =>
    have pass (hm : ∀ i, line ≠ .instruction i) :
        ∃ i ls s', Traced E I p b base e f n m h s' o (.instruction i :: ls) := by
      rcases T.active.pass_mark hm h with ⟨hpass, hA⟩
      exact ih (T.pass hpass T.intact hA)
    cases line with
    | instruction i => exact ⟨i, rest, s, T⟩
    | blank => exact pass (by simp)
    | label name => exact pass (by simp)

theorem Traced.fetched {f : σ} {j : Instruction Word} (T : Traced E I p b base e f n m h s o rest)
    (hf : m.Fetches j) : ∃ i ls s', Traced E I p b base e f n m h s' o (.instruction i :: ls) ∧
      j.opcode = i.opcode := by
  rcases T.instruction with ⟨i, ls, s', T⟩
  rcases T.active.fetches T.intact with ⟨j', hj, ho⟩
  rw [hj.unique hf] at ho
  exact ⟨i, ls, s', T, ho⟩

theorem Traced.returns {f : σ} {j : Instruction Word} {w : Word}
    (T : Traced E I p b base e f n m h s o rest) (hf : m.Fetches j) (hret : j.opcode = .ret)
    (hs : m.step h = (m', h', .running)) (hback : e.memory.word? base = some w) :
    Intact I p m' ∧ m'.memory = m.memory ∧ m'.programOffset = e.programOffset ∧
      m'.get .stack = Word.ofInt (base + 4) ∧ m'.get .instruction = w := by
  rcases T.fetched hf with ⟨i, ls, s', T, ho⟩
  rcases T.active.position.next with ⟨s₁, ha, _⟩
  rcases ha.of_ret rfl (ho.symm.trans hret) with ⟨hline, hw⟩
  have hA := T.active
  rw [hline] at hA
  rcases hA.returns T.intact hw hs with ⟨hi, hmem, hstart, hstack, hpos⟩
  exact ⟨hi, hmem, hstart.trans T.programOffset, hstack, hpos w ((T.spared _ (.inl rfl)).trans hback)⟩

theorem Active.pass_call {j : Instruction Word}
    (hA : Active I p m b base s o (Code.call (.function g) :: rest)) (hi : Intact I p m)
    (hany : ∀ i < g.arity, s.words[i]? = some .any) (hat : b.At (o + 5) ⟨s.words, none⟩ rest)
    (hs : m.step h = (m₁, h₁, .running)) (hE : E m₁)
    (he : Activates I p m m₁ g b' (base - 4 * s.words.length - 4) (o + 5))
    (T : Traced E I p b' (base - 4 * s.words.length - 4) m₁ h₁ n m₂ h₂ s' o' rest')
    (hf : m₂.Fetches j) (hret : j.opcode = .ret) (hs' : m₂.step h₂ = (m', h', .running)) :
    Pass E b base s (Code.call (.function g)) rest (n + 2) m h m' h' ⟨s.words, none⟩ rest ∧
      Intact I p m' ∧ Active I p m' b base ⟨s.words, none⟩ (o + 5) rest := by
  rcases hA.fetches hi with ⟨i, hi', ho⟩
  rcases T.returns hf hret hs' he.back with ⟨hi₁, hmem, hstart, hstack, hpos⟩
  rw [programOffset_of_running hs] at hstart
  have hkept : ∀ y, base - 4 * s.words.length + 4 * g.arity ≤ y →
      m'.memory.word? y = m.memory.word? y := by
    intro y hy
    rw [hmem, T.spared y (.inr (.inl (by rw [he.arity]; omega)))]
    exact he.agree.word? (by omega)
  have hA₁ : Active I p m' b base ⟨s.words, none⟩ (o + 5) rest := by
    refine hA.resumed hat hany ?_ hstart (by rw [hstack, he.stack]) hkept
    rw [At, hpos, absolute, absolute, hstart]
  refine ⟨⟨.call hany, .next, hstart, ?_, ?_, ?_⟩, hi₁, hA₁⟩
  · intro j y hj hcall hy
    have hle := hcall g rfl
    refine hkept y ?_
    unfold Body.Spares at hy
    omega
  · intro region k e c hr l
    exact .call l (hr (Opcode.size_pos .call)) hi' ho hs hE T.level hf hret hs'
  · intro r hline
    cases hline

theorem Traced.calls {f : σ} {j : Instruction Word} (hI : I.CompleteFor p E)
    (T : Traced E I p b base e f n m h s o rest) (hf : m.Fetches j) (hc : j.opcode = .call)
    (hs : m.step h = (m₁, h₁, .running)) (hE : E m₁) : ∃ g ls s' b',
      Traced E I p b base e f n m h s' o (Code.call (.function g) :: ls) ∧
      (∀ i < g.arity, s'.words[i]? = some .any) ∧ b.At (o + 5) ⟨s'.words, none⟩ ls ∧
      Activates I p m m₁ g b' (base - 4 * s'.words.length - 4) (o + 5) := by
  rcases T.fetched hf with ⟨i, ls, s', T, ho⟩
  rcases T.active.position.next with ⟨s₁, ha, hn⟩
  rcases ha.of_call rfl (ho.symm.trans hc) with ⟨g, hline, hany, rfl⟩
  rw [hline] at T hn
  have hat := hn (by rintro ⟨⟩)
  rcases T.active.enters hI hE T.intact hany hat hs with ⟨b', he⟩
  exact ⟨g, ls, s', b', T, hany, hat, he⟩

/-- Whatever a function does at its own level, it is known as long as it has not returned. -/
theorem exists_traced (hI : I.CompleteFor p E) {f : σ} (l : Level E region n e f m h) :
    ∀ {b : Body} {base : Int}, Intact I p e → (∃ rest, Active I p e b base ⟨[], none⟩ b.start rest) →
      ∃ s o rest, Traced E I p b base e f n m h s o rest := by
  induction l with
  | done e f =>
    intro b base hi hA
    rcases hA with ⟨rest, hA⟩
    exact ⟨_, _, rest, traced_start hi hA f⟩
  | step _ _ hf hc ht hs ih =>
    intro b base hi hA
    rcases ih hi hA with ⟨s, o, rest, T⟩
    rcases T.fetched hf with ⟨i, ls, s', T, ho⟩
    rw [ho] at hc ht
    rcases T.active.pass_step T.intact hc ht hs with ⟨s', o', rest', hpass, hi', hA'⟩
    exact ⟨s', o', rest', T.pass hpass hi' hA'⟩
  | call _ _ hf hc hs hE _ hf' ht hs' ih ih' =>
    intro b base hi hA
    rcases ih hi hA with ⟨s, o, rest, T⟩
    rcases T.calls hI hf hc hs hE with ⟨g, ls, s, b', T, hany, hat, he⟩
    rcases ih' he.intact he.active with ⟨s', o', rest', T'⟩
    rcases T.active.pass_call T.intact hany hat hs hE he T' hf' ht hs' with ⟨hpass, hi', hA'⟩
    exact ⟨_, _, _, T.pass hpass hi' hA'⟩

end WordMachine.Compiler
