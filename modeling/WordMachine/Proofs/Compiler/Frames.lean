import WordMachine.Proofs.Compiler.Expression
import WordMachine.Proofs.Compiler.Typing
import WordMachine.Proofs.Machine.Following

/-!
# Frames in memory

A machine in the middle of a function: the words that the function has pushed lie on top of the stack,
then come its local variables, its return address and its arguments. A variable of the environment has
its word in memory, and from the end of the frame on memory is as the caller left it.
-/

namespace WordMachine.Compiler

open Assembly Source Machine

/-! ### Places of variables -/

theorem getElem?_of_lastIndex? {x : String} {names : List String} {i : Nat}
    (h : lastIndex? x names = some i) : names[i]? = some x := by
  induction names generalizing i with
  | nil => cases h
  | cons y ys ih =>
    cases hy : lastIndex? x ys with
    | some j =>
      simp only [lastIndex?, hy, Option.some.injEq] at h
      subst h
      exact ih hy
    | none =>
      simp only [lastIndex?, hy] at h
      split at h
      · next he =>
        cases h
        simp [he]
      · cases h

namespace Frame

variable {f : Frame} {x y : String} {k n : Nat} {above : Int}

theorem offset?_eq_some (h : f.offset? x = some k) :
    (∃ i, f.locals[i]? = some x ∧ k = f.pushed + i) ∨
    (∃ i, f.parameters[i]? = some x ∧ k + i = f.depth + f.parameters.length) := by
  obtain ⟨j, hj, rfl⟩ := Option.map_eq_some_iff.1 h
  cases hl : lastIndex? x f.locals with
  | some i =>
    rw [hl] at hj
    cases hj
    exact .inl ⟨j, getElem?_of_lastIndex? hl, Nat.add_comm ..⟩
  | none =>
    rw [hl, Option.none_or] at hj
    obtain ⟨i, hi, rfl⟩ := Option.map_eq_some_iff.1 hj
    have hlt := lastIndex?_lt hi
    refine .inr ⟨i, getElem?_of_lastIndex? hi, ?_⟩
    rw [depth]
    omega

theorem offset?_bounds (h : f.offset? x = some k) :
    f.pushed ≤ k ∧ k ≠ f.depth ∧ k ≤ f.depth + f.parameters.length := by
  have hd : f.depth = f.locals.length + f.pushed := rfl
  obtain ⟨i, hi, hk⟩ | ⟨i, hi, hk⟩ := offset?_eq_some h
  · obtain ⟨hlt, _⟩ := List.getElem?_eq_some_iff.1 hi
    omega
  · obtain ⟨hlt, _⟩ := List.getElem?_eq_some_iff.1 hi
    omega

theorem offset?_inj (hx : f.offset? x = some k) (hy : f.offset? y = some k) : x = y := by
  have hd : f.depth = f.locals.length + f.pushed := rfl
  obtain ⟨i, hi, hk⟩ | ⟨i, hi, hk⟩ := offset?_eq_some hx
  · obtain ⟨j, hj, hk'⟩ | ⟨j, hj, hk'⟩ := offset?_eq_some hy
    · have he : i = j := by omega
      subst he
      exact Option.some.inj (hi.symm.trans hj)
    · obtain ⟨hlt, _⟩ := List.getElem?_eq_some_iff.1 hi
      obtain ⟨hlt', _⟩ := List.getElem?_eq_some_iff.1 hj
      omega
  · obtain ⟨j, hj, hk'⟩ | ⟨j, hj, hk'⟩ := offset?_eq_some hy
    · obtain ⟨hlt, _⟩ := List.getElem?_eq_some_iff.1 hi
      obtain ⟨hlt', _⟩ := List.getElem?_eq_some_iff.1 hj
      omega
    · have he : i = j := by omega
      subst he
      exact Option.some.inj (hi.symm.trans hj)

/-- Where the stack ends in a frame that ends at an address. -/
def top (f : Frame) (above : Int) : Int := above - 4 * (f.parameters.length + 1 + f.depth)

theorem top_push : (f.push n).top above = f.top above - 4 * n := by
  simp only [top, push, depth]
  omega

end Frame

/-! ### Frames -/

/-- A machine as the caller of a function leaves it, where the caller's own words begin and where it
goes on. There is room for the local variables of every function. -/
structure Caller (fs : List Function) (program : List UInt8) where
  machine : Machine
  above : Int
  back : Word
  loaded : machine.Loaded program
  above_le : above ≤ machine.programOffset.toNat
  room : ∀ f ∈ fs, machine.memory.size + 4 * f.locals.length < 4294967296

variable {fs : List Function} {program : List UInt8}

/-- The machine stands at an offset in the middle of a function, in a frame with these variables and
these words pushed. -/
structure Framed (c : Caller fs program) (f : Frame) (env : Env) (ws : List Word) (o : Nat)
    (m : Machine) : Prop where
  position : m.At o
  programOffset : m.programOffset = c.machine.programOffset
  stack : m.get .stack = Word.ofInt (f.top c.above)
  agree : c.machine.memory.AgreeFrom m.memory c.above
  back : m.memory.word? (c.above - 4 * (f.parameters.length + 1)) = some c.back
  words : ∀ (i : Nat) w, ws[i]? = some w → m.memory.word? (f.top c.above + 4 * i) = some w
  length : ws.length = f.pushed
  values : ∀ x w, env x = some w → ∃ k, f.offset? x = some k ∧
    m.memory.word? (f.top c.above + 4 * k) = some w
  room : c.machine.memory.size + 4 * f.locals.length < 4294967296

variable {c : Caller fs program} {f : Frame} {env : Env} {us ws : List Word} {w : Word} {o o' : Nat}
  {m m' : Machine} {x : String} {k n : Nat} {rs : List Register}

namespace Framed

theorem loaded (h : Framed c f env ws o m) : m.Loaded program :=
  c.loaded.of_agree h.agree c.above_le h.programOffset

theorem size_eq (h : Framed c f env ws o m) : m.memory.size = c.machine.memory.size := h.agree.1

theorem above_le (h : Framed c f env ws o m) : c.above ≤ m.memory.size := by
  have hl := c.loaded.size_eq
  have ha := c.above_le
  rw [h.size_eq]
  omega

theorem low (h : Framed c f env ws o m) : 0 ≤ f.top c.above + 4 * f.locals.length := by
  obtain ⟨hb, _⟩ := Memory.bounds_of_word? h.back
  cases ws with
  | nil =>
    have hp : 0 = f.pushed := h.length
    simp only [Frame.top, Frame.depth]
    omega
  | cons w ws =>
    obtain ⟨hw, _⟩ := Memory.bounds_of_word? (h.words 0 w rfl)
    omega

theorem slot_eq (h : Framed c f env ws o m) (k : Nat) :
    m.slot k = Word.ofInt (f.top c.above + 4 * k) := slot_of_stack h.stack k

theorem dropped (h : Framed c (f.push n) env (us ++ ws) o m) (hn : us.length = n) (ha : m'.At o')
    (hp : m'.programOffset = m.programOffset) (hm : m.memory.AgreeFrom m'.memory (f.top c.above))
    (hs : m'.get .stack = Word.ofInt (f.top c.above)) : Framed c f env ws o' m' where
  position := ha
  programOffset := hp.trans h.programOffset
  stack := hs
  agree := by
    refine h.agree.trans (hm.mono ?_)
    rw [Frame.top]
    omega
  back := by
    rw [hm.word?, ← h.back]
    · rfl
    · rw [Frame.top]
      omega
  words i w hw := by
    have hi := h.words (n + i) w (by rw [List.getElem?_append_right (by omega), hn,
      Nat.add_sub_cancel_left, hw])
    have he : f.top c.above + 4 * i = (f.push n).top c.above + 4 * ((n + i : Nat) : Int) := by
      rw [Frame.top_push]
      omega
    rw [hm.word? (by omega), he, hi]
  length := by
    have hl := h.length
    rw [List.length_append, hn] at hl
    have hp : (f.push n).pushed = f.pushed + n := rfl
    omega
  values x w hx := by
    obtain ⟨k, hk, hw⟩ := h.values x w hx
    rw [Frame.offset?_push] at hk
    obtain ⟨j, hj, rfl⟩ := Option.map_eq_some_iff.1 hk
    have he : f.top c.above + 4 * j = (f.push n).top c.above + 4 * ((j + n : Nat) : Int) := by
      rw [Frame.top_push]
      omega
    exact ⟨j, hj, by rw [hm.word? (by omega), he, hw]⟩
  room := h.room

theorem reread (h : Framed c (f.push n) env (us ++ ws) o m) (hn : us.length = n) (ha : m'.At o')
    (hp : m'.programOffset = m.programOffset) (hm : m.memory.AgreeFrom m'.memory (f.top c.above))
    (hs : m'.get .stack = m.get .stack) :
    ∃ vs, vs.length = n ∧ Framed c (f.push n) env (vs ++ ws) o' m' := by
  let vs := (List.range n).map fun i =>
    m'.memory.read (Word.ofInt ((f.push n).top c.above + 4 * (i : Nat))) 4
  have hlen : vs.length = n := by simp [vs]
  have htop : (f.push n).top c.above = f.top c.above - 4 * n := Frame.top_push
  refine ⟨vs, hlen, ha, hp.trans h.programOffset, hs.trans h.stack, ?_, ?_, fun i w hw => ?_, ?_,
    fun x w hx => ?_, h.room⟩
  · refine h.agree.trans (hm.mono ?_)
    rw [Frame.top]
    omega
  · rw [hm.word?, ← h.back]
    show f.top c.above ≤ c.above - 4 * (f.parameters.length + 1)
    rw [Frame.top]
    omega
  · by_cases hi : i < n
    · have hb := Memory.bounds_of_word? (h.words i us[i] (by
        rw [List.getElem?_append_left (by omega), List.getElem?_eq_getElem]))
      rw [← hm.1] at hb
      rw [List.getElem?_append_left (by omega)] at hw
      simp only [vs, List.getElem?_map, List.getElem?_range hi, Option.map_some,
        Option.some.injEq] at hw
      rw [Memory.word?_eq_some hb.1 hb.2, hw]
    · rw [hm.word? (by omega)]
      refine h.words i w ?_
      rw [List.getElem?_append_right (by omega), hn, ← hw, List.getElem?_append_right (by omega), hlen]
  · have hl := h.length
    rw [List.length_append] at hl ⊢
    omega
  · obtain ⟨k, hk, hw⟩ := h.values x w hx
    refine ⟨k, hk, ?_⟩
    obtain ⟨hpushed, _, _⟩ := Frame.offset?_bounds hk
    have hle : n ≤ (f.push n).pushed := Nat.le_add_left ..
    rw [hm.word? (by omega), hw]

theorem kept (h : Framed c f env ws o m) (p : Arrives 0 m m' rs o') (hs : .stack ∉ rs) :
    Framed c f env ws o' m' := by
  have h' : Framed c (f.push 0) env ([] ++ ws) o m := h
  refine h'.dropped rfl p.position p.programOffset ?_ ?_
  · rw [p.memory]
    exact .refl _ _
  · rw [p.others .stack hs Register.stack_ne_instruction, h.stack]

theorem pushed (h : Framed c f env ws o m) (p : Arrives (f.top c.above) m m' [.stack] o')
    (hs : m'.get .stack = Word.ofInt (f.top c.above - 4))
    (hw : m'.memory.word? (f.top c.above - 4) = some w) : Framed c (f.push 1) env (w :: ws) o' m' where
  position := p.position
  programOffset := p.programOffset.trans h.programOffset
  stack := by
    rw [hs, Frame.top_push]
    rfl
  agree := by
    refine h.agree.trans (p.agree.mono ?_)
    rw [Frame.top]
    omega
  back := by
    rw [p.agree.word?, ← h.back]
    · rfl
    · show f.top c.above ≤ c.above - 4 * (f.parameters.length + 1)
      rw [Frame.top]
      omega
  words i u hu := by
    rw [Frame.top_push]
    cases i with
    | zero =>
      cases hu
      have he : f.top c.above - 4 * ((1 : Nat) : Int) + 4 * ((0 : Nat) : Int) = f.top c.above - 4 := by
        omega
      rw [he, hw]
    | succ i =>
      have he : f.top c.above - 4 * ((1 : Nat) : Int) + 4 * ((i + 1 : Nat) : Int) =
          f.top c.above + 4 * i := by omega
      rw [he, p.agree.word? (by omega)]
      exact h.words i u hu
  length := by
    rw [List.length_cons, h.length]
    rfl
  values x u hx := by
    obtain ⟨k, hk, hu⟩ := h.values x u hx
    have he : (f.push 1).top c.above + 4 * ((k + 1 : Nat) : Int) = f.top c.above + 4 * k := by
      rw [Frame.top_push]
      omega
    refine ⟨k + 1, by rw [Frame.offset?_push, hk]; rfl, ?_⟩
    rw [he, p.agree.word? (by omega), hu]
  room := h.room

theorem assigned (h : Framed c f env ws o m) (hk : f.offset? x = some k) (hx : 0 ≤ f.top c.above)
    (ha : m'.At o') (hp : m'.programOffset = m.programOffset) (hs : m'.get .stack = m.get .stack)
    (hm : m'.memory = m.memory.write (Word.ofInt (f.top c.above + 4 * k)) 4 w) :
    Framed c f (env.set x w) ws o' m' := by
  obtain ⟨hk₁, hk₂, hk₃⟩ := Frame.offset?_bounds hk
  have htop : f.top c.above = c.above - 4 * (f.parameters.length + 1 + f.depth) := rfl
  have habove := h.above_le
  have hother {y : Int} (hy : y + 4 ≤ f.top c.above + 4 * k ∨ f.top c.above + 4 * k + 4 ≤ y) :
      m'.memory.word? y = m.memory.word? y := by
    rw [hm]
    exact Memory.word?_write_outside w (by omega) (by omega) hy
  refine ⟨ha, hp.trans h.programOffset, hs.trans h.stack, ?_, ?_, ?_, h.length, ?_, h.room⟩
  · refine h.agree.trans ?_
    rw [hm]
    exact Memory.agreeFrom_write w (by omega) (by omega) (by omega)
  · rw [hother (by omega), h.back]
  · intro i u hu
    obtain ⟨hi, _⟩ := List.getElem?_eq_some_iff.1 hu
    rw [h.length] at hi
    rw [hother (by omega), h.words i u hu]
  · intro y u hy
    rw [Env.set] at hy
    split at hy
    · next he =>
      cases hy
      subst he
      refine ⟨k, hk, ?_⟩
      rw [hm]
      exact Memory.word?_write_self _ (by omega) (by omega)
    · next he =>
      obtain ⟨j, hj, hu⟩ := h.values y u hy
      have hne : j ≠ k := by
        rintro rfl
        exact he (Frame.offset?_inj hj hk)
      exact ⟨j, hj, by rw [hother (by omega), hu]⟩

end Framed

end WordMachine.Compiler
